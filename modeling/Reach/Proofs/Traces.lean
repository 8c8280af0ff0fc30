import Reach.Proofs.Computation
import Reach.Proofs.Correspondence
import Reach.Proofs.Indifference

/-!
Rules of constructors and total builtins, on ground terms. What such a rule does to a ground term is told
by the values of its variables: those that make its left-hand side the term and its precondition true give
what the term becomes. Execution by matching does just this, so that its runs are the traces of that
relation.
-/

namespace Reach

/-- A rule that is made of constructors and of builtins that always have a result. -/
structure Rule.Elementary (sig : Signature) (rule : Rule) : Prop extends rule.Bare where
  checked : rule.check sig = .ok ()
  lhs : rule.lhs.Within (sig.computed fun _ => false)
  rhs : rule.rhs.Within (sig.computed Hook.isScalar)
  requires : rule.requires.Within (sig.computed Hook.isTotal)
  ensures : rule.ensures.Within (sig.computed Hook.isTotal)

/-- The left-hand side has all the variables, and the postcondition is true where the precondition is. -/
structure Rule.Determined (sig : Signature) (rule : Rule) : Prop extends rule.Elementary sig where
  bound : ∀ v ∈ rule.allVars, v ∈ rule.lhs.vars
  promised : ∀ assign, sig.Supplies assign → rule.requires.fold (sig.assigned assign) = .truth →
    rule.ensures.fold (sig.assigned assign) = .truth

/-- A rule takes one ground term to another. -/
def Rewrites (sig : Signature) (rules : List Rule) (a b : Term) : Prop :=
  ∃ rule ∈ rules, ∃ assign, sig.Supplies assign ∧ rule.lhs.fold (sig.assigned assign) = a ∧
    rule.requires.fold (sig.assigned assign) = .truth ∧ rule.rhs.fold (sig.assigned assign) = b

/-- The terms from one to another that no rule takes any further. -/
inductive Trace (sig : Signature) (rules : List Rule) : Term → List Term → Prop
  | stuck {a : Term} (stuck : ∀ b, ¬Rewrites sig rules a b) : Trace sig rules a [a]
  | step {a b : Term} {path : List Term} (rewrites : Rewrites sig rules a b)
      (later : Trace sig rules b path) : Trace sig rules a (a :: path)

theorem Rule.check_conditions {sig : Signature} {rule : Rule} (checked : rule.check sig = .ok ()) :
    rule.requires.sort = .bool ∧ rule.ensures.sort = .bool := by
  obtain ⟨_, checked⟩ := seq_eq_ok_iff.mp checked
  obtain ⟨_, checked⟩ := seq_eq_ok_iff.mp checked
  split at checked
  · cases checked
  · have each := forM_eq_ok_iff.mp checked
    have bool {condition : Term} (member : condition ∈ [rule.requires, rule.ensures]) :
        condition.sort = .bool := by
      by_contra other
      have := each condition member
      rw [if_neg other] at this
      cases this
    exact ⟨bool (by simp), bool (by simp)⟩

theorem Rule.mem_allVars_of_part {rule : Rule} {part : Term} {v : Variable}
    (among : part ∈ [rule.lhs, rule.rhs, rule.requires, rule.ensures]) (occurs : v ∈ part.vars) :
    v ∈ rule.allVars := by
  simp only [List.mem_cons, List.not_mem_nil, or_false] at among
  rcases among with rfl | rfl | rfl | rfl <;> simp [allVars, occurs]

namespace Rule.Elementary

variable {sig : Signature} {rule : Rule} (elementary : rule.Elementary sig)
include elementary

theorem computedLhs : rule.lhs.Computed sig fun _ => false :=
  ⟨(check_terms elementary.checked).1 _ (by simp), elementary.lhs⟩

theorem computedRhs : rule.rhs.Computed sig Hook.isScalar :=
  ⟨(check_terms elementary.checked).1 _ (by simp), elementary.rhs⟩

theorem computedRequires : rule.requires.Computed sig Hook.isTotal :=
  ⟨(check_terms elementary.checked).1 _ (by simp), elementary.requires⟩

theorem computedEnsures : rule.ensures.Computed sig Hook.isTotal :=
  ⟨(check_terms elementary.checked).1 _ (by simp), elementary.ensures⟩

/-- No function stands at the head of the rule. -/
theorem semantic {label : String} (headed : rule.lhs.label? = some label) : sig.isFunction label = false := by
  have allowed := elementary.lhs.here
  cases shape : rule.lhs with
  | app label' sort args =>
    rw [shape] at allowed headed
    cases headed
    exact allowed.resolve_right fun ⟨_, _, _, _, never⟩ => nomatch never
  | _ =>
    rw [shape] at headed
    cases headed

end Rule.Elementary

section Values

variable {sig : Signature} {hooks : Hook → Bool} {term pattern subject : Term} {assign other : Variable → Term}
  {s seed : Subst} {v : Variable}

/-- A condition whose variables have values is true or false. -/
theorem Term.Computed.bool_cases (elementary : sig.Elementary) (supplies : sig.Supplies assign)
    (total : ∀ hook, hooks hook = true → hook.isTotal = true) (computed : term.Computed sig hooks)
    (bool : term.sort = .bool) :
    term.fold (sig.assigned assign) = .truth ∨ term.fold (sig.assigned assign) = .falsity := by
  obtain ⟨datum, sorted⟩ := computed.datum elementary supplies total
  have scalar := datum.of_sort elementary rfl (bool ▸ sorted)
  generalize term.fold (sig.assigned assign) = value at scalar
  cases scalar with
  | bool value =>
    cases value with
    | true => exact .inl rfl
    | false => exact .inr rfl

/-- A value of the sort. -/
def TermSort.sample (sort : TermSort) : Term :=
  .token sort (match sort with
    | .int => "0"
    | .bool => "true"
    | _ => "")

private theorem TermSort.datum_sample (sig : Signature) (sort : TermSort) : sort.sample.Datum sig := by
  refine ⟨Term.Computed.token_iff.mpr ?_, rfl⟩
  cases sort with
  | int => exact ⟨0, rfl⟩
  | bool => exact .inl rfl
  | _ => trivial

/-- Values for variables that do not matter. -/
theorem Signature.supplies_sample (sig : Signature) : sig.Supplies fun v => v.sort.sample :=
  ⟨fun v => v.sort.datum_sample sig, fun v => TermSort.accepts_self v.sort⟩

/-- What the bindings of a substitution give, where the variables of their terms have values. -/
def Subst.through (sig : Signature) (s : Subst) (assign : Variable → Term) (v : Variable) : Term :=
  (s.image v).fold (sig.assigned assign)

/-- A variable keeps its value if it is equal to what it is bound to. -/
theorem Subst.through_eq_of_bound
    (bound : ∀ term, s.get? v = some term → assign v = term.fold (sig.assigned assign)) :
    s.through sig assign v = assign v := by
  cases found : s.get? v with
  | none =>
    rw [through, image_of_get?_none found]
    rfl
  | some term =>
    rw [through, image_of_get? found]
    exact (bound term found).symm

theorem Signature.Supplies.respects (supplies : sig.Supplies assign) :
    (sig.assigned assign).Respects sig fun _ => False :=
  sig.respects_assigned fun v => (supplies.datum v).canonical

theorem Signature.Supplies.ground (supplies : sig.Supplies assign) (term : Term) :
    (term.fold (sig.assigned assign)).ground = true :=
  ground_assigned (fun v => (supplies.datum v).ground) term

/-- An instance has the value that the term has where its variables have those of their images. -/
theorem Signature.Supplies.fold_apply (supplies : sig.Supplies assign) (s : Subst) (term : Term) :
    (s.apply term).fold (sig.assigned assign) = term.fold (sig.assigned (s.through sig assign)) :=
  supplies.respects.normalizing.fold_apply s term

/-- A ground instance evaluates to the value of the term. -/
theorem Signature.Supplies.evalBuiltins_of_ground (supplies : sig.Supplies assign)
    (ground : ∀ v ∈ term.vars, (s.image v).ground = true) :
    sig.evalBuiltins (s.apply term) = term.fold (sig.assigned (s.through sig assign)) := by
  rw [← supplies.fold_apply]
  refine Term.fold_congr fun v occurs => ?_
  rw [(Term.ground_iff_vars_eq_nil _).mp (Subst.ground_apply_iff.mpr ground)] at occurs
  cases occurs

theorem Signature.Supplies.through (elementary : sig.Elementary) (supplies : sig.Supplies assign)
    (total : ∀ hook, hooks hook = true → hook.isTotal = true) (computed : s.Computed sig hooks) :
    sig.Supplies (s.through sig assign) where
  datum v := ((computed.image v).datum elementary supplies total).1
  sorted v := by
    have accepted := computed.sorted.image v
    have kept := ((computed.image v).datum elementary supplies total).2
    simp only [TermSort.accepts, Bool.or_eq_true, beq_iff_eq] at accepted kept ⊢
    rcases accepted with same | top
    · rcases kept with kept | top
      · exact .inl (same.trans kept)
      · exact .inr (same.trans top)
    · exact .inr top

/-- The value of a term depends on the variables that occur in it. -/
theorem Signature.fold_assigned_congr (same : ∀ v ∈ term.vars, assign v = other v) :
    term.fold (sig.assigned assign) = term.fold (sig.assigned other) :=
  Term.fold_congr same

theorem Signature.Supplies.fold_apply_congr (supplies : sig.Supplies assign)
    (same : ∀ v ∈ term.vars, s.through sig assign v = other v) :
    (s.apply term).fold (sig.assigned assign) = term.fold (sig.assigned other) :=
  (supplies.fold_apply s term).trans (fold_assigned_congr same)

end Values

section Matches

variable {sig : Signature} {hooks hooks' : Hook → Bool} {pattern subject term : Term}
  {assign : Variable → Term} {s seed : Subst} {v : Variable}

/-- What holds everywhere in an instance holds everywhere in the images of its variables. -/
theorem Term.Everywhere.image_of_bare {holds : Term → Prop} (bare : term.Within .bare)
    (whole : Everywhere holds (s.apply term)) (occurs : v ∈ term.vars) : Everywhere holds (s.image v) := by
  induction term using induct with
  | var w =>
    obtain rfl := List.mem_singleton.mp occurs
    rwa [Subst.apply_var_eq] at whole
  | token sort value => cases occurs
  | app label sort args ih =>
    obtain ⟨arg, member, occurs⟩ := mem_vars_app.mp occurs
    rw [Subst.apply_app_eq] at whole
    exact ih arg member ((app_iff.mp bare).2 arg member)
      ((app_iff.mp whole).2 _ (List.mem_map_of_mem member)) occurs
  | collection kind entries frame ihEntries ihFrame => exact absurd bare.here id

theorem Term.Computed.image_of_apply (bare : term.Within .bare)
    (whole : (s.apply term).Computed sig hooks) (occurs : v ∈ term.vars) :
    (s.image v).Computed sig hooks where
  checked := (Signature.check_eq_ok_iff sig _).mpr
    (Term.Everywhere.image_of_bare bare ((Signature.check_eq_ok_iff sig _).mp whole.checked) occurs)
  within := Term.Everywhere.image_of_bare bare whole.within occurs

/-- A match binds to computed terms, if the subject is one and it begins with such. -/
theorem Matching.IsCanonicalMatch.computed (bare : pattern.Within .bare) (computed : subject.Computed sig hooks)
    (seeded : seed.Computed sig hooks) (matched : IsCanonicalMatch seed pattern subject s) :
    s.Computed sig hooks := by
  obtain ⟨⟨extension, rfl, _⟩, _⟩ := matched
  refine .of_get? fun v term bound => ?_
  cases held : seed.get? v with
  | some kept =>
    obtain rfl := Option.some.inj (bound.symm.trans (extension.keeps v kept held))
    exact seeded.get? held
  | none =>
    have occurs : v ∈ pattern.vars :=
      ((extension.domain v).mp (Option.isSome_of_mem bound)).resolve_left (by simp [held])
    rw [← Subst.image_of_get? bound]
    exact ⟨computed.image_of_apply bare occurs,
      Subst.image_of_get? bound ▸ extension.sorted v term held bound⟩

/-- The values that a match of a constructor term with a ground term gives to the variables. -/
theorem exists_supplies_of_match (elementary : sig.Elementary)
    (computed : pattern.Computed sig fun _ => false) (datum : subject.Datum sig)
    (matched : Matching.IsCanonicalMatch .empty pattern subject s) :
    ∃ assign, sig.Supplies assign ∧ pattern.fold (sig.assigned assign) = subject ∧
      ∀ term : Term, (∀ v ∈ term.vars, v ∈ pattern.vars) →
        sig.evalBuiltins (s.apply term) = term.fold (sig.assigned assign) := by
  have bindings := matched.computed computed.bare datum.toComputed (.empty sig _)
  have ground : ∀ v ∈ pattern.vars, (s.image v).ground = true := by
    have whole := datum.ground
    rw [← matched.image] at whole
    exact Subst.ground_apply_iff.mp whole
  have sample := sig.supplies_sample
  have values (term : Term) (inside : ∀ v ∈ term.vars, v ∈ pattern.vars) :=
    sample.evalBuiltins_of_ground fun v occurs => ground v (inside v occurs)
  refine ⟨_, sample.through elementary (by simp) bindings, ?_, values⟩
  rw [← values pattern fun _ => id, matched.image]
  exact datum.fold_eq elementary .var

/-- Values that make a constructor term a ground term are those of a match. -/
theorem exists_match_of_fold (elementary : sig.Elementary)
    (computed : pattern.Computed sig fun _ => false) (supplies : sig.Supplies assign)
    (same : pattern.fold (sig.assigned assign) = subject) :
    ∃ s ∈ (Matching.enumerate pattern subject).toList, Matching.IsCanonicalMatch .empty pattern subject s ∧
      ∀ term : Term, (∀ v ∈ term.vars, v ∈ pattern.vars) →
        sig.evalBuiltins (s.apply term) = term.fold (sig.assigned assign) := by
  let s := Subst.ofValues assign pattern.vars
  have bound (v : Variable) : s.get? v = if v ∈ pattern.vars then some (assign v) else none :=
    Subst.get?_ofValues assign pattern.vars v
  have image : ∀ v ∈ pattern.vars, s.image v = assign v := fun v occurs =>
    Subst.image_of_get? ((bound v).trans (if_pos occurs))
  have valued {v : Variable} {term : Term} (found : s.get? v = some term) :
      v ∈ pattern.vars ∧ term = assign v := by
    rw [bound] at found
    split at found
    · next occurs => exact ⟨occurs, (Option.some.inj found).symm⟩
    · cases found
  have datum : subject.Datum sig := by
    rw [← same]
    exact (computed.datum elementary supplies (by simp)).1
  have whole : (s.apply pattern).Datum sig := by
    refine ⟨computed.apply (fun v occurs => ?_) (fun v term found => ?_),
      Subst.ground_apply_iff.mpr fun v occurs => ?_⟩
    · rw [image v occurs]
      exact (supplies.datum v).toComputed
    · rw [(valued found).2]
      exact supplies.sorted v
    · rw [image v occurs]
      exact (supplies.datum v).ground
  have matched : Matching.IsCanonicalMatch .empty pattern subject s := by
    refine ⟨⟨⟨nofun, fun v => ?_, fun v term _ found => ?_⟩, ?_,
      computed.bare.mono fun node allowed => ?_⟩, fun v term found => ?_⟩
    · rw [bound]
      by_cases occurs : v ∈ pattern.vars <;> simp [occurs]
    · rw [(valued found).2]
      exact supplies.sorted v
    · rw [← whole.fold_eq elementary assign, supplies.fold_apply, ← same]
      refine Signature.fold_assigned_congr fun v occurs => ?_
      rw [Subst.through, image v occurs]
      exact (supplies.datum v).fold_eq elementary assign
    · cases node with
      | collection kind entries frame => exact absurd allowed id
      | _ => trivial
    · rw [(valued found).2]
      exact (supplies.datum v).canonical
  have none : Subst.Canonical Assoc.empty := nofun
  have invariant := Matching.invariant_of_check computed.canonical datum.canonical computed.checked
    datum.checked none
  obtain ⟨sound, complete, _⟩ := Matching.Problem.solve_lists _ invariant (Nat.le_refl _)
  obtain ⟨found, member, agree⟩ := complete s (Matching.isCanonicalMatch_iff.mp matched)
  refine ⟨found, member, Matching.isCanonicalMatch_iff.mpr (sound found member), fun term inside => ?_⟩
  rw [sig.evalBuiltins_apply]
  refine Term.fold_congr fun v occurs => ?_
  show sig.evalBuiltins (found.image v) = assign v
  rw [Subst.image_congr (agree v), image v (inside v occurs)]
  exact (supplies.datum v).fold_eq elementary .var

end Matches

section Heads

variable {sig : Signature} {hooks : Hook → Bool} {rule : Rule} {d : Definition} {pattern term : Term}
  {assign other : Variable → Term} (elementary : sig.Elementary)
include elementary

/-- A constructor stays at the head of a term. -/
theorem Term.Computed.label?_pattern (computed : pattern.Computed sig fun _ => false) :
    pattern.label? = none ∨ pattern.label? = (pattern.fold (sig.assigned assign)).label? := by
  cases pattern with
  | app label sort args =>
    obtain ⟨_, free | ⟨_, _, _, _, impossible⟩, _⟩ := app_iff.mp computed
    · right
      rw [Term.fold_app]
      show some label = ((sig.callHook label _).getD (.app label sort _)).label?
      simp [Signature.callHook, elementary.hooksFunctions label free, Term.label?]
    · cases impossible
  | _ => exact .inl rfl

/-- A term with a value has its head, or none. -/
theorem Term.Computed.label?_fold (supplies : sig.Supplies assign)
    (total : ∀ hook, hooks hook = true → hook.isTotal = true) (computed : term.Computed sig hooks)
    (shape : term.var? = none) :
    (term.fold (sig.assigned assign)).label? = none ∨
      (term.fold (sig.assigned assign)).label? = term.label? := by
  cases term with
  | var v => cases shape
  | token sort text => exact .inl rfl
  | collection kind entries frame => exact absurd computed.bare.here id
  | app label sort args =>
    obtain ⟨⟨decl, found, same, _⟩, allowed, _⟩ := app_iff.mp computed
    rcases allowed with free | ⟨name, hook, hooked, named, known⟩
    · right
      rw [Term.fold_app]
      show ((sig.callHook label _).getD (.app label sort _)).label? = some label
      simp [Signature.callHook, elementary.hooksFunctions label free, Term.label?]
    · left
      obtain ⟨datum, sorted⟩ := computed.datum elementary supplies total
      obtain ⟨other, found', made, _⟩ := elementary.declared hooked named
      obtain rfl := Option.some.inj (found.symm.trans found')
      have scalar : sort.isScalar = true := by
        rw [← same, made]
        exact hook.isScalar_sort (total hook known)
      have value := datum.of_sort elementary scalar sorted
      generalize Term.fold (sig.assigned assign) (.app label sort args) = result at value
      cases value <;> rfl

/-- A rule whose left-hand side has the value of a term is tried on the term. -/
theorem Engine.mem_tried_of_fold (filed : d.Filed) (member : rule ∈ d.rules)
    (lhs : rule.lhs.Computed sig fun _ => false) (supplies : sig.Supplies assign)
    (total : ∀ hook, hooks hook = true → hook.isTotal = true) (computed : term.Computed sig hooks)
    (same : rule.lhs.fold (sig.assigned other) = term.fold (sig.assigned assign)) :
    rule ∈ tried d term := by
  cases shape : term.var? with
  | some v =>
    cases term with
    | var w => exact member
    | _ => cases shape
  | none =>
    have candidate : rule ∈ d.candidates term := by
      refine filed.mem_candidates member ?_
      rcases @Term.Computed.label?_pattern sig rule.lhs other elementary lhs with none | head
      · exact .inl none
      · rw [same] at head
        rcases computed.label?_fold elementary supplies total shape with none | kept
        · exact .inl (head.trans none)
        · exact .inr (head.trans kept)
    cases term with
    | var w => cases shape
    | _ => exact candidate

end Heads

namespace Engine

variable {α : Type} {context : Context} {world after : World} {sig : Signature} {rules : List Rule}
  {rule : Rule} {a b : Term} {s : Subst} {successors : List Successor}

section Standing

/-- A world with a standard store, and itself. -/
def Standing (sig : Signature) (first second : World) : Prop :=
  first = second ∧ first.store.Standard sig

/-- Where the store is a standard one it stays one. -/
abbrev Upholds (context : Context) (action : Engine α) : Prop :=
  Indifferent context (Standing context.definition.signature) action

theorem Upholds.standard {action : Engine α} {value : α} (upholds : Upholds context action)
    (collects : context.definition.Collects sig rules) (standard : world.store.Standard sig)
    (gives : Gives action context world value after) : after.store.Standard sig := by
  obtain rfl := collects.signature
  have behind := (upholds world world ⟨rfl, standard⟩).2.2
  rwa [gives] at behind

theorem upholds_feasible (c : Constraint) : Upholds context (feasible c) := by
  rintro world _ ⟨rfl, standard⟩
  rw [run_feasible]
  exact ⟨rfl, rfl, standard.feasible c⟩

theorem upholds_implies (c d : Constraint) : Upholds context (implies c d) := by
  rintro world _ ⟨rfl, standard⟩
  rw [run_implies]
  exact ⟨rfl, rfl, standard.implies c d⟩

theorem upholds_draw {γ : Type} (drawing : Fresh → γ × Fresh) : Upholds context (draw drawing) := by
  rintro world _ ⟨rfl, standard⟩
  exact ⟨rfl, rfl, standard⟩

theorem upholds_get {γ : Type} {next : Fresh → Engine γ} (later : ∀ fresh, Upholds context (next fresh)) :
    Upholds context (get >>= fun world => next world.fresh) := by
  rintro world _ ⟨rfl, standard⟩
  exact later world.fresh world world ⟨rfl, standard⟩

theorem upholds_step (state : State) (mode : Mode) : Upholds context (step state mode) :=
  indifferent_step upholds_feasible upholds_draw upholds_get state mode

end Standing

/-- What a rule gives on a ground term. -/
def become (context : Context) (rule : Rule) (term : Term) : Successor where
  state := { term }
  rule := rule.label
  transition := context.config.isTransition rule
  narrowing := .empty
  condition := .top

/-- What a rule gives on a ground term under one of its matches: nothing, unless its precondition is true. -/
def become? (context : Context) (rule : Rule) (s : Subst) : Option Successor :=
  let sig := context.definition.signature
  if sig.evalBuiltins (s.apply rule.requires) = .truth then
    some (become context rule (sig.evalBuiltins (s.apply rule.rhs)))
  else none

/-- The match decides the precondition, and then the postcondition is true. -/
def Decides (sig : Signature) (rule : Rule) (s : Subst) : Prop :=
  sig.evalBuiltins (s.apply rule.requires) = .truth ∧ sig.evalBuiltins (s.apply rule.ensures) = .truth ∨
    sig.evalBuiltins (s.apply rule.requires) = .falsity

section Matching

variable (collects : context.definition.Collects context.definition.signature rules)
include collects

/-- The store is not needed to tell whether the precondition is true. -/
theorem gives_successor?_matching (bare : rule.Bare) (decides : Decides context.definition.signature rule s) :
    Gives (successor? rule { term := a } { subst := s } s) context world (become? context rule s) world := by
  refine (gives_successor? bare).mpr ?_
  simp only [collects.evaluate, become?]
  rcases decides with ⟨requires, ensures⟩ | requires
  · rw [requires, ensures, if_pos rfl]
    exact ⟨.truth, true, rfl, gives_feasible.mpr ⟨rfl, rfl⟩, _, .truth, rfl, rfl, rfl⟩
  · rw [requires, if_neg Term.truth_ne_falsity.symm]
    exact ⟨.falsity, false, rfl, gives_feasible.mpr ⟨rfl, rfl⟩, rfl⟩

private theorem gives_addMatches_matching (bare : rule.Bare) {choices : Enumeration Subst}
    {found : List Successor} (decides : ∀ s ∈ choices.toList, Decides context.definition.signature rule s) :
    Gives (addMatches rule { term := a } none choices found) context world
      (found ++ choices.toList.filterMap (become? context rule)) world := by
  induction choices generalizing found with
  | nil => exact gives_pure.mpr ⟨by simp, rfl⟩
  | cons s more ih =>
    obtain ⟨here, later⟩ := List.forall_mem_cons.mp decides
    unfold addMatches
    refine gives_bind.mpr ⟨found ++ (become? context rule s).toList, world, ?_, ?_⟩
    · exact (gives_addFit bare).mpr ⟨_, gives_successor?_matching collects bare here, rfl⟩
    · simp only [full, Option.any_none, Bool.false_eq_true, ↓reduceIte]
      have rest := @ih () (found ++ (become? context rule s).toList) later
      rw [List.append_assoc] at rest
      rw [Enumeration.toList, List.filterMap_cons]
      cases outcome : become? context rule s <;> simpa [outcome] using rest

/-- A step of a ground term is one of a rule that matches it and whose precondition is true. -/
theorem gives_step_matching (bare : ∀ rule ∈ rules, rule.Bare)
    (decides : ∀ rule ∈ rules, ∀ s ∈ (Matching.enumerate rule.lhs a).toList,
      Decides context.definition.signature rule s) :
    Gives (step { term := a } .matching) context world
      ((context.definition.candidates a).flatMap fun rule =>
        (Matching.enumerate rule.lhs a).toList.filterMap (become? context rule)) world := by
  refine gives_step.mpr ⟨(context.definition.candidates a).map fun rule =>
    (Matching.enumerate rule.lhs a).toList.filterMap (become? context rule), ?_, rfl⟩
  have known : ∀ rule ∈ context.definition.candidates a, rule ∈ rules := fun rule candidate =>
    collects.rules ▸ mem_rules_of_mem_candidates candidate
  rw [considered]
  generalize context.definition.candidates a = candidates at known
  induction candidates with
  | nil => exact gives_pure.mpr ⟨rfl, rfl⟩
  | cons rule rest ih =>
    obtain ⟨here, later⟩ := List.forall_mem_cons.mp known
    rw [List.mapM_cons]
    refine gives_bind.mpr ⟨_, world, ?_, gives_bind.mpr ⟨_, world, ih later, gives_pure.mpr ⟨rfl, rfl⟩⟩⟩
    exact gives_addMatches_matching collects (bare rule here) (decides rule here)

end Matching

/-- The states of a chain of steps by matching, from one to one that has no successor. -/
inductive Execution (context : Context) : State → List State → Prop
  | ends {state : State} {world after : World}
      (gives : Gives (step state .matching) context world [] after) : Execution context state [state]
  | step {state : State} {states : List State} {successors : List Successor} {next : Successor}
      {world after : World} (gives : Gives (step state .matching) context world successors after)
      (member : next ∈ successors) (later : Execution context next.state states) :
      Execution context state (state :: states)

section Ground

variable (elementary : sig.Elementary) (collects : context.definition.Collects sig rules)
  (determined : ∀ rule ∈ rules, rule.Determined sig) (datum : a.Datum sig)
include elementary collects determined datum

/-- The steps of a ground term are those of the relation, and there are some if the relation has any. -/
theorem of_gives_step_matching (gives : Gives (step { term := a } .matching) context world successors after) :
    (∀ next ∈ successors, ∃ b, next.state = { term := b } ∧ b.Datum sig ∧ Rewrites sig rules a b) ∧
      (successors = [] → ∀ b, ¬Rewrites sig rules a b) := by
  obtain rfl := collects.signature
  have valued {rule : Rule} (member : rule ∈ rules) {s : Subst}
      (listed : s ∈ (Matching.enumerate rule.lhs a).toList) :
      ∃ assign, context.definition.signature.Supplies assign ∧
        rule.lhs.fold (context.definition.signature.assigned assign) = a ∧
        ∀ term : Term, (∀ v ∈ term.vars, v ∈ rule.allVars) →
          context.definition.signature.evalBuiltins (s.apply term) =
            term.fold (context.definition.signature.assigned assign) := by
    have computed := (determined rule member).computedLhs
    have none : Subst.Canonical Assoc.empty := nofun
    obtain ⟨assign, supplies, same, values⟩ := exists_supplies_of_match elementary computed datum
      (Matching.isCanonicalMatch_of_mem computed.canonical datum.canonical computed.checked datum.checked none
        listed)
    exact ⟨assign, supplies, same, fun term inside => values term fun v occurs =>
      (determined rule member).bound v (inside v occurs)⟩
  have decides (rule : Rule) (member : rule ∈ rules) (s : Subst)
      (listed : s ∈ (Matching.enumerate rule.lhs a).toList) :
      Decides context.definition.signature rule s := by
    obtain ⟨assign, supplies, _, values⟩ := valued member listed
    have known := determined rule member
    rw [Decides, values _ fun v => Rule.mem_allVars_of_part (by simp),
      values _ fun v => Rule.mem_allVars_of_part (by simp)]
    refine (known.computedRequires.bool_cases elementary supplies (fun _ => id)
      (Rule.check_conditions known.checked).1).imp_left fun holds => ⟨holds, ?_⟩
    exact known.promised assign supplies holds
  obtain ⟨rfl, rfl⟩ := gives.unique (gives_step_matching collects
    (fun rule member => (determined rule member).toBare) decides)
  refine ⟨fun next among => ?_, fun none b rewrites => ?_⟩
  · obtain ⟨rule, candidate, among⟩ := List.mem_flatMap.mp among
    obtain ⟨s, listed, outcome⟩ := List.mem_filterMap.mp among
    have member : rule ∈ rules := collects.rules ▸ mem_rules_of_mem_candidates candidate
    obtain ⟨assign, supplies, same, values⟩ := valued member listed
    have known := determined rule member
    have requires := values rule.requires fun v => Rule.mem_allVars_of_part (by simp)
    have rhs := values rule.rhs fun v => Rule.mem_allVars_of_part (by simp)
    simp only [become?, requires, rhs] at outcome
    split at outcome
    · next requires =>
      cases outcome
      exact ⟨_, rfl, (known.computedRhs.datum elementary supplies fun _ => Hook.isTotal_of_isScalar).1,
        rule, member, assign, supplies, same, requires, rfl⟩
    · cases outcome
  · obtain ⟨rule, member, assign, supplies, same, requires, _⟩ := rewrites
    have known := determined rule member
    obtain ⟨s, listed, _, values⟩ := exists_match_of_fold elementary known.computedLhs supplies same
    have candidate : rule ∈ context.definition.candidates a := by
      have isTried := mem_tried_of_fold elementary collects.filed (collects.rules ▸ member)
        known.computedLhs supplies (by simp) datum.toComputed
        (same.trans (datum.fold_eq elementary assign).symm)
      have ground := datum.ground
      cases a with
      | var v => cases ground
      | _ => exact isTried
    have absent : become context rule (context.definition.signature.evalBuiltins (s.apply rule.rhs)) ∈
        ([] : List Successor) := by
      rw [← none]
      refine List.mem_flatMap.mpr ⟨rule, candidate, List.mem_filterMap.mpr ⟨s, listed, ?_⟩⟩
      refine if_pos ((values _ fun v occurs => known.bound v ?_).trans requires)
      exact Rule.mem_allVars_of_part (by simp) occurs
    cases absent

/-- An execution of a ground term is a trace. -/
theorem Execution.trace {state : State} {states : List State} (execution : Execution context state states)
    (start : state = { term := a }) : Trace sig rules a (states.map State.term) := by
  induction execution generalizing a with
  | ends gives =>
    subst start
    exact .stuck ((of_gives_step_matching elementary collects determined datum gives).2 rfl)
  | step gives member _ ih =>
    subst start
    obtain ⟨b, same, datum', rewrites⟩ :=
      (of_gives_step_matching elementary collects determined datum gives).1 _ member
    exact .step rewrites (ih datum' same)

end Ground

end Engine

end Reach