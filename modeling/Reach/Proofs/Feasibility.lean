import Reach.Proofs.Bounds
import Reach.Proofs.Functions

/-!
Constraints are written over functions that have rules, but the store decides them with the builtins
alone. It does not refute what evaluation satisfies, as long as the builtins that compare terms as
they are written are not applied to calls of such functions: a call that still has a value of its own
is then taken for a value.
-/

namespace Reach

namespace Definition

variable {d : Definition} {limit : Nat}

/-- The functions that have rules are not hooked, and only functions are hooked. -/
structure Separate (d : Definition) : Prop where
  function : ∀ label, d.functionRules label ≠ [] → d.signature.isFunction label = true
  unhooked : ∀ label, d.functionRules label ≠ [] → d.signature.hook? label = none
  hooks : d.signature.HooksFunctions

private theorem separate_of_ofRules {sig : Signature} {rules : List Rule} (hooks : sig.HooksFunctions)
    (unhooked : ∀ rule ∈ rules, ∀ label, rule.lhs.label? = some label →
      sig.isFunction label = true → sig.hook? label = none)
    (made : ofRules sig rules = .ok d) : d.Separate := by
  obtain ⟨parted, _⟩ := parted_of_ofRules made
  obtain rfl := parted.signature
  refine ⟨fun label ruled => ?_, fun label ruled => ?_, hooks⟩
  · obtain ⟨rule, member⟩ := List.exists_mem_of_ne_nil _ ruled
    exact (parted.mem_functionRules member).2.2
  · obtain ⟨rule, member⟩ := List.exists_mem_of_ne_nil _ ruled
    obtain ⟨listed, head, function⟩ := parted.mem_functionRules member
    exact unhooked rule listed label head function

/-- The labels whose applications the rules may evaluate. -/
def Ruled (d : Definition) (label : String) : Prop :=
  d.functionRules label ≠ []

theorem Separate.respects (separate : d.Separate) (limit depth : Nat) :
    (d.evaluation limit depth).Respects d.signature d.Ruled where
  normalizing := d.normalizing_evaluation limit depth
  token := rfl
  hooked label sort args result called := by
    refine Evaluation.algebra_app ?_
    rw [Evaluation.node, called]
  tight label sort args unruled called := by
    refine Evaluation.algebra_app ?_
    rw [Evaluation.node, called]
    dsimp only
    rw [call_of_functionRules_eq_nil (not_not.mp unruled), ite_self]
  function := separate.function
  unhooked := separate.unhooked

end Definition

/-- The atom is true once its variables are replaced and its functions are evaluated. -/
def Atom.SatisfiedBy (d : Definition) (limit : Nat) (s : Subst) : Atom → Prop
  | .eq a b => ∃ value, d.evaluate limit (s.apply a) = .ok value ∧
    d.evaluate limit (s.apply b) = .ok value
  | .holds condition => d.evaluate limit (s.apply condition) = .ok .truth

/-- Variables are replaced by values, in which integers are plain decimals. -/
structure Subst.ByValues (sig : Signature) (s : Subst) : Prop where
  canonical : s.Canonical
  value : ∀ v term, s.get? v = some term → sig.isValue term = true
  decimal : ∀ v term, s.get? v = some term → term.Within sig.plain

variable {d : Definition} {limit : Nat} {s : Subst} {atom : Atom}

theorem Atom.SatisfiedBy.holdsIn (satisfied : atom.SatisfiedBy d limit s) :
    atom.HoldsIn ((d.evaluation limit limit).after s) := by
  have normalizing := d.normalizing_evaluation limit limit
  cases atom with
  | eq a b =>
    obtain ⟨value, left, right⟩ := satisfied
    rw [HoldsIn, ← normalizing.fold_apply, ← normalizing.fold_apply]
    exact (Definition.fold_of_evaluateWithin left).trans
      (Definition.fold_of_evaluateWithin right).symm
  | holds condition =>
    rw [HoldsIn, ← normalizing.fold_apply]
    exact Definition.fold_of_evaluateWithin satisfied

namespace Subst.ByValues

theorem image_cases (values : s.ByValues d.signature) (v : Variable) : s.image v = .var v ∨
    (s.image v).Canonical ∧ d.signature.isValue (s.image v) = true ∧
      (s.image v).Within d.signature.plain := by
  cases bound : s.get? v with
  | none => exact .inl (Subst.image_of_get?_none bound)
  | some term =>
    rw [show s.image v = term by simp [Subst.image, bound]]
    exact .inr ⟨values.canonical v term bound, values.value v term bound, values.decimal v term bound⟩

/-- A value has no function labels, so nothing in it is hooked. -/
theorem unhooked_image (values : s.ByValues d.signature) (separate : d.Separate) (v : Variable) :
    (s.image v).Within { label := fun label _ => d.signature.hook? label = none } := by
  rcases values.image_cases v with free | ⟨_, value, _⟩
  · rw [free]
    exact Term.Everywhere.var_iff.mpr trivial
  · have constructors := List.all_eq_true.mp (Bool.and_eq_true_iff.mp value).2
    refine Signature.within_of_labels fun label occurs => separate.hooks label ?_
    simpa using constructors label occurs

/-- A value evaluates to itself. -/
theorem fold_image (values : s.ByValues d.signature) (separate : d.Separate) (limit : Nat)
    (v : Variable) : (s.image v).fold (d.evaluation limit limit) = s.image v := by
  rcases values.image_cases v with free | ⟨canonical, value, _⟩
  · rw [free]
    rfl
  · have evaluated : d.signature.Evaluated (s.image v) := by
      refine (values.unhooked_image separate v).mono fun node allowed => ?_
      cases node with
      | app label sort args =>
        have unhooked : d.signature.hook? label = none := allowed
        simp [Signature.Settled, Signature.callHook, unhooked]
      | _ => trivial
    exact Signature.fold_of_ground (separate.respects limit limit) canonical evaluated
      (Signature.within_of_isValue separate.function value) (Signature.ground_of_isValue value)

private theorem stable_image (values : s.ByValues d.signature) (separate : d.Separate) (v : Variable) :
    d.signature.Stable d.Ruled (s.image v) := by
  have unhooked := (values.unhooked_image separate v).here
  rcases values.image_cases v with free | ⟨_, _, decimal⟩
  · rw [free]
    trivial
  · have plain := decimal.here
    revert unhooked plain
    cases s.image v with
    | app label sort args =>
      intro unhooked _ name hook hooked
      cases unhooked.symm.trans hooked
    | token sort text => exact fun _ plain => plain
    | _ => exact fun _ _ => trivial

end Subst.ByValues

/-- Over the builtin labels and more, no rule defines what a builtin computes. A constraint that is
satisfied by values of its variables, as evaluation has it, is then feasible, if its builtins are not
on maps and those that compare terms as they are written have no functions with rules below them. -/
theorem feasible_of_satisfied {decls : List Declaration} {sig : Signature} {rules : List Rule}
    {c : Constraint} {store : Store} (declared : Signature.builtin.declareAll decls = .ok sig)
    (functions : ∀ decl ∈ decls, decl.function = false → decl.hook = none)
    (unhooked : ∀ rule ∈ rules, ∀ label, rule.lhs.label? = some label →
      sig.isFunction label = true → sig.hook? label = none)
    (made : Definition.ofRules sig rules = .ok d) (standard : store.Standard sig)
    (values : s.ByValues sig) (consistent : c.contradiction = false)
    (stable : ∀ atom ∈ c.atoms, atom.Stable sig d.Ruled)
    (satisfied : ∀ atom ∈ c.atoms, atom.SatisfiedBy d limit s) :
    (Store.feasible sig c store).1 = .ok true := by
  have builtins := Signature.constructive_builtin.toHasBuiltins.declareAll declared
  have hooks := Signature.hooksFunctions_builtin.declareAll functions declared
  have separate := Definition.separate_of_ofRules hooks unhooked made
  obtain rfl := (Definition.parted_of_ofRules made).1.signature
  refine standard.feasible_of_fulfilled builtins ((separate.respects limit limit).after s) (fun v => ?_)
    ⟨consistent, fun atom member => (satisfied atom member).holdsIn, stable⟩
  show d.signature.Stable d.Ruled ((s.image v).fold (d.evaluation limit limit))
  rw [values.fold_image separate limit v]
  exact values.stable_image separate v

/-- A function of one number. -/
def oneFunction : Signature :=
  ⟨Signature.builtin.labels.insert "f" (.functional "f" [.int] .int)⟩

def call (arg : Term) : Term :=
  .app "f" .int [arg]

/-- The function is 2 everywhere. -/
def alwaysTwo : Rule :=
  { label := "two", lhs := call (.var ⟨"X", .int⟩), rhs := .ofInt 2 }

def constantTwo : Definition :=
  { signature := oneFunction
    rules := []
    index := .empty
    unindexed := []
    functions := Assoc.empty.insert "f" [alwaysTwo] }

theorem oneFunction_declared :
    Signature.builtin.declareAll [.functional "f" [.int] .int] = .ok oneFunction := by
  rfl

private theorem constantTwo_made : Definition.ofRules oneFunction [alwaysTwo] = .ok constantTwo := by
  rfl

/-- One of the equalities, between a call and 2. -/
def isTwo (equality : String) (arg : Term) : Term :=
  .app equality .bool [call arg, .ofInt 2]

private theorem stable_isTwo (v : Variable) :
    (Atom.holds (isTwo Label.intEq (.var v))).Stable oneFunction constantTwo.Ruled := by
  intro part inside
  obtain rfl := List.mem_singleton.mp inside
  refine Term.Everywhere.app_iff.mpr ⟨fun name hook hooked named => ?_, fun arg given => ?_⟩
  · rw [show oneFunction.hook? Label.intEq = some "INT.eq" from rfl] at hooked
    cases hooked
    cases named
    exact ⟨rfl, nofun⟩
  · rcases List.mem_cons.mp given with rfl | given
    · refine Term.Everywhere.app_iff.mpr ⟨fun name hook hooked => ?_, fun arg given => ?_⟩
      · rw [show oneFunction.hook? "f" = none from rfl] at hooked
        cases hooked
      · obtain rfl := List.mem_singleton.mp given
        exact Term.Everywhere.var_iff.mpr trivial
    · obtain rfl := List.mem_singleton.mp given
      exact Term.Everywhere.token_iff.mpr fun _ => ⟨2, rfl⟩

private theorem byValues_single (v : Variable) (number : Int) :
    (Subst.single v (.ofInt number)).ByValues oneFunction := by
  refine ⟨fun w term bound => ?_, fun w term bound => ?_, fun w term bound => ?_⟩
  · rw [(Subst.eq_of_get?_single bound).2]
    exact .token _ _
  · rw [(Subst.eq_of_get?_single bound).2]
    rfl
  · rw [(Subst.eq_of_get?_single bound).2]
    exact Term.Everywhere.token_iff.mpr fun _ => ⟨number, rfl⟩

/-- Numbers are compared by their values, so nothing is refuted. -/
theorem feasible_of_satisfied_two :
    (Store.feasible oneFunction ⟨[.holds (isTwo Label.intEq (.var ⟨"Y", .int⟩))], false⟩
      .standard).1 = .ok true := by
  have unhooked : ∀ rule ∈ [alwaysTwo], ∀ label, rule.lhs.label? = some label →
      oneFunction.isFunction label = true → oneFunction.hook? label = none := by
    intro rule member label head _
    obtain rfl := List.mem_singleton.mp member
    cases head
    rfl
  have satisfied : (Atom.holds (isTwo Label.intEq (.var ⟨"Y", .int⟩))).SatisfiedBy constantTwo 256
      (.single ⟨"Y", .int⟩ (.ofInt 1)) := by
    show constantTwo.evaluate 256 _ = _
    decide +kernel
  exact feasible_of_satisfied oneFunction_declared (by decide) unhooked constantTwo_made
    (Store.standard_standard oneFunction) (byValues_single ⟨"Y", .int⟩ 1) rfl
    (by simpa using stable_isTwo ⟨"Y", .int⟩) (by simpa using satisfied)

/-- Terms are compared as they are written, and a call is not written like its value. -/
theorem feasible_of_satisfied_written :
    Definition.ofRules oneFunction [alwaysTwo] = .ok constantTwo ∧
      (Atom.holds (isTwo Label.termEq (.ofInt 1))).SatisfiedBy constantTwo 256 .empty ∧
      (Store.feasible oneFunction ⟨[.holds (isTwo Label.termEq (.ofInt 1))], false⟩ .standard).1 =
        .ok false := by
  refine ⟨rfl, ?_, ?_⟩
  · show constantTwo.evaluate 256 _ = _
    decide +kernel
  · decide +kernel

end Reach
