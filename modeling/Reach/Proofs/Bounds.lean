import Reach.Proofs.Ranges
import Reach.Proofs.Satisfaction
import Reach.Store

/-!
The local decision procedure refutes nothing that an assignment satisfies: the value of a variable
lies in the range that the comparisons leave for it. So the store answers that a constraint is
feasible whenever some assignment satisfies it.
-/

namespace Reach

namespace Term

/-- If the term is an integer token, it is spelled as a plain decimal. -/
def Decimal (term : Term) : Prop :=
  ∀ value, term.int? = some value → term = .ofInt value

/-- Integers are written as plain decimals. -/
def Fragment.decimals : Fragment where
  token sort value := sort = .int → ∃ number : Int, value = Numeral.render number

theorem decimal_of_render {term : Term}
    (rendered : ∀ text, term = .token .int text → ∃ number : Int, text = Numeral.render number) :
    term.Decimal := by
  intro value known
  cases term with
  | token sort text =>
    cases sort with
    | int =>
      obtain ⟨number, rfl⟩ := rendered text rfl
      have read := Numeral.parse?_render number
      cases read.symm.trans known
      rfl
    | _ => cases known
  | _ => cases known

theorem decimal_of_stable {sig : Signature} {loose : String → Prop} {term : Term}
    (stable : sig.Stable loose term) : term.Decimal := by
  refine decimal_of_render fun text same => ?_
  subst same
  exact stable rfl

theorem decimal_of_within {term : Term} (within : term.Within .decimals) : term.Decimal := by
  refine decimal_of_render fun text same => ?_
  subst same
  exact within.here rfl

end Term

namespace Bounds

/-- How two values compare: as integers, or as terms. -/
inductive Compared : Comparison → Term → Term → Prop
  | ints {comparison : Comparison} {a b : Term} {x y : Int} (left : a.int? = some x)
      (right : b.int? = some y) (holds : comparison.holds x y = true) : Compared comparison a b
  | same (a : Term) : Compared .eq a a
  | differ {a b : Term} (differ : a ≠ b) : Compared .ne a b

variable {sig : Signature} {loose : String → Prop} {algebra : Term.Algebra Term}
  {comparison : Comparison} {label : String} {sort : TermSort} {a b : Term} {v : Variable} {atom : Atom}

theorem Compared.flip (compared : Compared comparison a b) : Compared comparison.flip b a := by
  cases compared with
  | ints left right holds => exact .ints right left (by rwa [Comparison.holds_flip])
  | same a => exact .same a
  | differ differ => exact .differ differ.symm

theorem ofBool_injective {first second : Bool} (same : Term.ofBool first = .ofBool second) :
    first = second := by
  simpa using congrArg Term.bool? same

section Comparisons

/-- The labels of comparisons are hooked to them. -/
theorem hook_of_comparison (known : comparison? label = some comparison) :
    ∃ name hook, Signature.builtin.hook? label = some name ∧ Hook.ofName? name = some hook ∧
      (hook = .intCompare comparison ∨ comparison = .eq ∧ hook = .termEq ∨
        comparison = .ne ∧ hook = .termNe) := by
  unfold comparison? at known
  split at known
  · next same =>
    cases known
    exact ⟨"INT.lt", _, by rw [same]; rfl, rfl, .inl rfl⟩
  split at known
  · next same =>
    cases known
    exact ⟨"INT.le", _, by rw [same]; rfl, rfl, .inl rfl⟩
  split at known
  · next same =>
    cases known
    exact ⟨"INT.gt", _, by rw [same]; rfl, rfl, .inl rfl⟩
  split at known
  · next same =>
    cases known
    exact ⟨"INT.ge", _, by rw [same]; rfl, rfl, .inl rfl⟩
  split at known
  · next same =>
    cases known
    rcases same with same | same
    · exact ⟨"INT.eq", _, by rw [same]; rfl, rfl, .inl rfl⟩
    · exact ⟨"K.eq", _, by rw [same]; rfl, rfl, .inr (.inl ⟨rfl, rfl⟩)⟩
  split at known
  · next same =>
    cases known
    rcases same with same | same
    · exact ⟨"INT.ne", _, by rw [same]; rfl, rfl, .inl rfl⟩
    · exact ⟨"K.ne", _, by rw [same]; rfl, rfl, .inr (.inr ⟨rfl, rfl⟩)⟩
  · cases known

variable (builtins : sig.HasBuiltins) (respects : algebra.Respects sig loose)
include builtins respects

theorem compared_of_fold (answer : Bool) (known : comparison? label = some comparison)
    (decided : (Term.app label sort [a, b]).fold algebra = .ofBool answer) :
    Compared (if answer then comparison else comparison.negate) (a.fold algebra) (b.fold algebra) := by
  obtain ⟨name, hook, hooked, named, which⟩ := hook_of_comparison known
  rw [respects.fold_hooked (builtins.hook?_eq hooked), builtins.callHook_eq hook hooked named] at decided
  simp only [List.map_cons, List.map_nil] at decided
  generalize a.fold algebra = x at *
  generalize b.fold algebra = y at *
  cases made : hook.apply [x, y] with
  | none =>
    rw [made] at decided
    cases decided
  | some result =>
    rw [made, Option.getD_some] at decided
    subst decided
    rcases which with rfl | ⟨rfl, rfl⟩ | ⟨rfl, rfl⟩
    · obtain ⟨p, q, left, right, same⟩ := Hook.onBoth_eq_some made
      have holds := ofBool_injective (Option.some.inj same)
      refine .ints left right ?_
      cases answer with
      | true => exact holds
      | false =>
        rw [if_neg (by simp), Comparison.holds_negate, holds]
        rfl
    · have made : Hook.onGround (fun p q => p = q) x y = some (.ofBool answer) := made
      obtain ⟨_, _, same⟩ := Hook.onGround_eq_some made
      have holds := ofBool_injective same
      cases answer with
      | true =>
        obtain rfl := of_decide_eq_true holds.symm
        exact .same x
      | false => exact .differ (of_decide_eq_false holds.symm)
    · have made : Hook.onGround (fun p q => p ≠ q) x y = some (.ofBool answer) := made
      obtain ⟨_, _, same⟩ := Hook.onGround_eq_some made
      have holds := ofBool_injective same
      cases answer with
      | true => exact .differ (of_decide_eq_true holds.symm)
      | false =>
        obtain rfl := not_not.mp (of_decide_eq_false holds.symm)
        exact .same x

/-- What an atom compares compares in that way. -/
theorem compared_of_holds (known : comparisonOf? atom = some (comparison, a, b))
    (holds : atom.HoldsIn algebra) : Compared comparison (a.fold algebra) (b.fold algebra) := by
  unfold comparisonOf? at known
  split at known
  · cases known
    rw [show a.fold algebra = b.fold algebra from holds]
    exact .same _
  · next label sort args =>
    split at known
    · next same =>
      subst same
      split at known
      · next inner innerSort x y =>
        obtain ⟨direct, named, same⟩ := Option.map_eq_some_iff.mp known
        cases same
        exact compared_of_fold builtins respects false named
          ((Constraint.fold_not_eq_truth builtins respects).mp holds)
      · cases known
    · split at known
      · obtain ⟨direct, named, same⟩ := Option.map_eq_some_iff.mp known
        cases same
        exact compared_of_fold builtins respects true named holds
      · cases known
  · cases known

end Comparisons

/-- An integer variable, or its sum or its difference with a constant. -/
inductive Linear : Term → Variable → Int → Prop
  | var {v : Variable} (integer : v.sort = .int) : Linear (.var v) v 0
  | addRight {v : Variable} {sort : TermSort} {constant : Term} {offset : Int}
      (integer : v.sort = .int) (known : constant.int? = some offset) :
      Linear (.app Label.intAdd sort [.var v, constant]) v offset
  | addLeft {v : Variable} {sort : TermSort} {constant : Term} {offset : Int}
      (integer : v.sort = .int) (known : constant.int? = some offset) :
      Linear (.app Label.intAdd sort [constant, .var v]) v offset
  | sub {v : Variable} {sort : TermSort} {constant : Term} {offset : Int}
      (integer : v.sort = .int) (known : constant.int? = some offset) :
      Linear (.app Label.intSub sort [.var v, constant]) v (-offset)

theorem Linear.integer {offset : Int} (linear : Linear a v offset) : v.sort = .int := by
  cases linear <;> assumption

theorem intVar?_eq_some_iff : intVar? a = some v ↔ a = .var v ∧ v.sort = .int := by
  cases a <;> simp [intVar?, Term.var?, Option.filter_eq_some_iff]

theorem intVar?_of_int? {value : Int} (known : a.int? = some value) : intVar? a = none := by
  cases a with
  | var w => cases known
  | _ => rfl

theorem linear?_eq_some_iff {offset : Int} : linear? a = some (v, offset) ↔ Linear a v offset := by
  constructor
  · intro found
    unfold linear? at found
    split at found
    · next w single =>
      cases found
      obtain ⟨rfl, integer⟩ := intVar?_eq_some_iff.mp single
      exact .var integer
    · split at found
      · next label sort x y =>
        split at found
        · next same =>
          subst same
          split at found
          · next w left _ =>
            obtain ⟨constant, known, same⟩ := Option.map_eq_some_iff.mp found
            cases same
            obtain ⟨rfl, integer⟩ := intVar?_eq_some_iff.mp left
            exact .addRight integer known
          · next w _ right =>
            obtain ⟨constant, known, same⟩ := Option.map_eq_some_iff.mp found
            cases same
            obtain ⟨rfl, integer⟩ := intVar?_eq_some_iff.mp right
            exact .addLeft integer known
          · cases found
        · split at found
          · next same =>
            subst same
            obtain ⟨w, left, found⟩ := Option.bind_eq_some_iff.mp found
            obtain ⟨constant, known, same⟩ := Option.bind_eq_some_iff.mp found
            cases same
            obtain ⟨rfl, integer⟩ := intVar?_eq_some_iff.mp left
            exact .sub integer known
          · cases found
      · cases found
  · intro linear
    have single {w : Variable} (integer : w.sort = .int) : intVar? (.var w) = some w :=
      intVar?_eq_some_iff.mpr ⟨rfl, integer⟩
    have outer (label : String) (sort : TermSort) (args : List Term) :
        intVar? (.app label sort args) = none := rfl
    cases linear with
    | var integer => simp only [linear?, single integer]
    | addRight integer known =>
      simp [linear?, outer, single integer, intVar?_of_int? known, known]
    | addLeft integer known =>
      simp [linear?, outer, single integer, intVar?_of_int? known, known]
    | sub integer known =>
      have differ : Label.intSub ≠ Label.intAdd := by decide
      simp [linear?, outer, single integer, known, differ]

/-- A sum or a difference is an integer exactly when both sides are, and then it is spelled as a plain
decimal. -/
theorem int?_fold_iff (respects : algebra.Respects sig loose) {name : String}
    {op : Int → Int → Int} {value : Int} (hooked : sig.hook? label = some name)
    (hook : ∀ x y, sig.callHook label [x, y] = Hook.onBoth Term.int? (fun p q => some (.ofInt (op p q))) x y) :
    ((Term.app label sort [a, b]).fold algebra).int? = some value ↔
      ∃ x y, (a.fold algebra).int? = some x ∧ (b.fold algebra).int? = some y ∧ op x y = value ∧
        (Term.app label sort [a, b]).fold algebra = .ofInt value := by
  constructor
  · intro known
    rw [respects.fold_hooked hooked] at known ⊢
    simp only [List.map_cons, List.map_nil, hook] at known ⊢
    cases made : Hook.onBoth Term.int? (fun p q => some (.ofInt (op p q))) (a.fold algebra) (b.fold algebra) with
    | none =>
      rw [made] at known
      cases known
    | some result =>
      obtain ⟨p, q, left, right, whole⟩ := Hook.onBoth_eq_some made
      obtain rfl := Option.some.inj whole
      rw [made, Option.getD_some, Term.int?_ofInt] at known
      have same := Option.some.inj known
      exact ⟨p, q, left, right, same, by rw [Option.getD_some, same]⟩
  · intro ⟨_, _, _, _, _, spelled⟩
    rw [spelled, Term.int?_ofInt]

theorem fold_of_ints (respects : algebra.Respects sig loose) {name : String}
    {op : Int → Int → Int} {x y : Int} (hooked : sig.hook? label = some name)
    (hook : ∀ x y, sig.callHook label [x, y] = Hook.onBoth Term.int? (fun p q => some (.ofInt (op p q))) x y)
    (left : (a.fold algebra).int? = some x) (right : (b.fold algebra).int? = some y) :
    (Term.app label sort [a, b]).fold algebra = .ofInt (op x y) := by
  rw [respects.fold_hooked hooked]
  simp [hook, Hook.onBoth, left, right]

section Values

variable (builtins : sig.HasBuiltins) (respects : algebra.Respects sig loose)
include builtins respects

/-- A linear term whose value is an integer says which integer its variable is. -/
theorem var_of_linear {offset value : Int} (linear : Linear a v offset)
    (decimal : (algebra.var v).Decimal) (known : (a.fold algebra).int? = some value) :
    algebra.var v = .ofInt (value - offset) := by
  have add (x y : Term) : sig.callHook Label.intAdd [x, y] = _ :=
    builtins.callHook_eq .intAdd rfl rfl [x, y]
  have sub (x y : Term) : sig.callHook Label.intSub [x, y] = _ :=
    builtins.callHook_eq .intSub rfl rfl [x, y]
  cases linear with
  | var integer => rw [Int.sub_zero, decimal value known]
  | addRight integer read =>
    obtain ⟨x, y, left, right, sum, _⟩ :=
      (int?_fold_iff respects (builtins.hook?_eq rfl) add).mp known
    rw [Hook.fold_of_int? respects.fold_token read, read] at right
    cases right
    rw [decimal x left, ← sum, Int.add_sub_cancel]
  | addLeft integer read =>
    obtain ⟨x, y, left, right, sum, _⟩ :=
      (int?_fold_iff respects (builtins.hook?_eq rfl) add).mp known
    rw [Hook.fold_of_int? respects.fold_token read, read] at left
    cases left
    rw [decimal y right, ← sum, Int.add_comm, Int.add_sub_cancel]
  | sub integer read =>
    obtain ⟨x, y, left, right, sum, _⟩ :=
      (int?_fold_iff respects (builtins.hook?_eq rfl) sub).mp known
    rw [Hook.fold_of_int? respects.fold_token read, read] at right
    cases right
    rw [decimal x left, ← sum, Int.sub_neg, Int.sub_add_cancel]

theorem fold_linear {offset value : Int} (linear : Linear a v offset)
    (same : algebra.var v = .ofInt value) : a.fold algebra = .ofInt (value + offset) := by
  have add (x y : Term) : sig.callHook Label.intAdd [x, y] = _ :=
    builtins.callHook_eq .intAdd rfl rfl [x, y]
  have sub (x y : Term) : sig.callHook Label.intSub [x, y] = _ :=
    builtins.callHook_eq .intSub rfl rfl [x, y]
  have read : ((Term.var v).fold algebra).int? = some value := by
    rw [Term.fold_var, same, Term.int?_ofInt]
  have constant {term : Term} {offset : Int} (known : term.int? = some offset) :
      (term.fold algebra).int? = some offset := by
    rw [Hook.fold_of_int? respects.fold_token known, known]
  cases linear with
  | var integer => rw [Int.add_zero, Term.fold_var, same]
  | addRight integer known =>
    exact fold_of_ints respects (builtins.hook?_eq rfl) add read (constant known)
  | addLeft integer known =>
    rw [fold_of_ints respects (builtins.hook?_eq rfl) add (constant known) read, Int.add_comm]
  | sub integer known =>
    rw [fold_of_ints respects (builtins.hook?_eq rfl) sub read (constant known), Int.sub_eq_add_neg]

/-- What a comparison says of two integers. -/
theorem fold_comparison {x y : Int} (known : comparison? label = some comparison)
    (left : a.fold algebra = .ofInt x) (right : b.fold algebra = .ofInt y) :
    (Term.app label sort [a, b]).fold algebra = .ofBool (comparison.holds x y) := by
  obtain ⟨name, hook, hooked, named, which⟩ := hook_of_comparison known
  rw [respects.fold_hooked (builtins.hook?_eq hooked), builtins.callHook_eq hook hooked named,
    List.map_cons, List.map_cons, List.map_nil, left, right]
  have same : (Term.ofInt x = Term.ofInt y) = (x = y) := by
    refine propext ⟨fun equal => ?_, congrArg Term.ofInt⟩
    simpa using congrArg Term.int? equal
  rcases which with rfl | ⟨rfl, rfl⟩ | ⟨rfl, rfl⟩
  · simp [Hook.apply, Hook.onBoth]
  · show Term.ofBool (decide (Term.ofInt x = Term.ofInt y)) = _
    simp only [same]
    rfl
  · show Term.ofBool (decide (Term.ofInt x ≠ Term.ofInt y)) = _
    simp only [ne_eq, same]
    refine congrArg Term.ofBool ?_
    rw [Comparison.holds, Bool.eq_iff_iff, decide_eq_true_eq, bne_iff_ne]

end Values

/-- The bound that an atom sets to a variable. -/
def boundOf? (atom : Atom) : Option (Comparison × Variable × Int) :=
  (comparisonOf? atom).bind fun (comparison, a, b) => normalForm? comparison a b

/-- What a comparison with a constant says about a variable: it is an integer that compares so, or
it is none and the comparison was a disequality. -/
def Bounded (algebra : Term.Algebra Term) (comparison : Comparison) (v : Variable) (bound : Int) :
    Prop :=
  (∃ value, algebra.var v = .ofInt value ∧ comparison.holds value bound = true) ∨
    comparison = .ne ∧ ∀ value, algebra.var v ≠ .ofInt value

/-- A comparison in normal form is one of a linear term with a constant, on either side. -/
theorem of_normalForm? {result : Comparison} {bound : Int}
    (found : normalForm? comparison a b = some (result, v, bound)) :
    ∃ offset constant, bound = constant - offset ∧
      (Linear a v offset ∧ b.int? = some constant ∧ result = comparison ∨
        Linear b v offset ∧ a.int? = some constant ∧ result = comparison.flip) := by
  unfold normalForm? at found
  split at found
  · next linear known =>
    cases found
    exact ⟨_, _, rfl, .inl ⟨linear?_eq_some_iff.mp linear, known, rfl⟩⟩
  · split at found
    · next linear known =>
      cases found
      exact ⟨_, _, rfl, .inr ⟨linear?_eq_some_iff.mp linear, known, rfl⟩⟩
    · cases found

theorem stable_of_comparisonOf? (stable : atom.Stable sig loose)
    (known : comparisonOf? atom = some (comparison, a, b)) : sig.Stable loose a ∧ sig.Stable loose b := by
  unfold comparisonOf? at known
  split at known
  · cases known
    exact ⟨(stable _ (by simp [Atom.parts])).here, (stable _ (by simp [Atom.parts])).here⟩
  · next label sort args =>
    obtain ⟨_, inner⟩ := Term.Everywhere.app_iff.mp (stable _ (List.mem_singleton_self _))
    split at known
    · split at known
      · obtain ⟨_, _, same⟩ := Option.map_eq_some_iff.mp known
        cases same
        obtain ⟨_, deeper⟩ := Term.Everywhere.app_iff.mp (inner _ (List.mem_singleton_self _))
        exact ⟨(deeper _ (by simp)).here, (deeper _ (by simp)).here⟩
      · cases known
    · split at known
      · obtain ⟨_, _, same⟩ := Option.map_eq_some_iff.mp known
        cases same
        exact ⟨(inner _ (by simp)).here, (inner _ (by simp)).here⟩
      · cases known
  · cases known

/-- Bounds are set to integer variables. -/
theorem integer_of_boundOf? {bound : Int} (found : boundOf? atom = some (comparison, v, bound)) :
    v.sort = .int := by
  obtain ⟨_, _, found⟩ := Option.bind_eq_some_iff.mp found
  obtain ⟨_, _, _, ⟨linear, _⟩ | ⟨linear, _⟩⟩ := of_normalForm? found
  · exact linear.integer
  · exact linear.integer

section Atoms

variable (builtins : sig.HasBuiltins) (respects : algebra.Respects sig loose)
include builtins respects

theorem bounded_of_linear {offset constant : Int} (decimal : (algebra.var v).Decimal)
    (spelled : b.Decimal) (linear : Linear a v offset) (known : b.int? = some constant)
    (compared : Compared comparison (a.fold algebra) (b.fold algebra)) :
    Bounded algebra comparison v (constant - offset) := by
  obtain rfl := spelled constant known
  rw [Hook.fold_of_int? respects.fold_token known] at compared
  generalize shape : a.fold algebra = x at compared
  generalize shape' : Term.ofInt constant = y at compared
  cases compared with
  | ints left right holds =>
    rename_i p q
    subst shape shape'
    rw [known] at right
    cases right
    refine .inl ⟨_, var_of_linear builtins respects linear decimal left, ?_⟩
    cases comparison <;> simp only [Comparison.holds, decide_eq_true_eq, beq_iff_eq, bne_iff_ne] at * <;>
      omega
  | same =>
    subst shape'
    refine .inl ⟨constant - offset, var_of_linear builtins respects linear decimal ?_, ?_⟩
    · rw [shape, Term.int?_ofInt]
    · simp [Comparison.holds]
  | differ differ =>
    by_cases integer : ∃ value, algebra.var v = .ofInt value
    · obtain ⟨value, same⟩ := integer
      refine .inl ⟨value, same, ?_⟩
      rw [fold_linear builtins respects linear same] at shape
      subst shape shape'
      have apart : value + offset ≠ constant := fun same => differ (by rw [same])
      simp only [Comparison.holds, bne_iff_ne]
      omega
    · exact .inr ⟨rfl, not_exists.mp integer⟩

/-- What an atom that holds says about the variable that it bounds. -/
theorem bounded_of_holds {bound : Int} (decimal : (algebra.var v).Decimal)
    (stable : atom.Stable sig loose) (holds : atom.HoldsIn algebra)
    (found : boundOf? atom = some (comparison, v, bound)) :
    Bounded algebra comparison v bound := by
  obtain ⟨⟨direct, a, b⟩, known, found⟩ := Option.bind_eq_some_iff.mp found
  obtain ⟨stableLeft, stableRight⟩ := stable_of_comparisonOf? stable known
  have compared := compared_of_holds builtins respects known holds
  obtain ⟨offset, constant, rfl, ⟨linear, read, rfl⟩ | ⟨linear, read, rfl⟩⟩ := of_normalForm? found
  · exact bounded_of_linear builtins respects decimal (Term.decimal_of_stable stableRight) linear read
      compared
  · exact bounded_of_linear builtins respects decimal (Term.decimal_of_stable stableLeft) linear read
      compared.flip

/-- What an atom compares decides it where both sides are integers. -/
theorem fold_of_comparisonOf? {x y : Int} (known : comparisonOf? atom = some (comparison, a, b))
    (left : a.fold algebra = .ofInt x) (right : b.fold algebra = .ofInt y) :
    atom.toTerm.fold algebra = .ofBool (comparison.holds x y) := by
  unfold comparisonOf? at known
  split at known
  · cases known
    exact fold_comparison builtins respects rfl left right
  · next label sort args =>
    split at known
    · next same =>
      subst same
      split at known
      · next inner innerSort x' y' =>
        obtain ⟨direct, named, same⟩ := Option.map_eq_some_iff.mp known
        cases same
        have hooked : sig.hook? Label.boolNot = some "BOOL.not" := builtins.hook?_eq rfl
        rw [Atom.toTerm, respects.fold_hooked hooked, List.map_singleton, builtins.callHook_not,
          fold_comparison builtins respects named left right, Term.bool?_ofBool,
          Comparison.holds_negate]
        rfl
      · cases known
    · split at known
      · obtain ⟨direct, named, same⟩ := Option.map_eq_some_iff.mp known
        cases same
        exact fold_comparison builtins respects named left right
      · cases known
  · cases known

/-- A bound to a variable that is an integer decides its atom. -/
theorem fold_of_boundOf? {bound value : Int} (stable : atom.Stable sig loose)
    (found : boundOf? atom = some (comparison, v, bound)) (same : algebra.var v = .ofInt value) :
    atom.toTerm.fold algebra = .ofBool (comparison.holds value bound) := by
  obtain ⟨⟨direct, a, b⟩, known, found⟩ := Option.bind_eq_some_iff.mp found
  obtain ⟨stableLeft, stableRight⟩ := stable_of_comparisonOf? stable known
  have shifted (comparison : Comparison) (offset constant : Int) :
      comparison.holds (value + offset) constant = comparison.holds value (constant - offset) := by
    rw [Bool.eq_iff_iff]
    cases comparison <;> simp only [Comparison.holds, decide_eq_true_eq, beq_iff_eq, bne_iff_ne] <;>
      omega
  have fixed {term : Term} {constant : Int} (spelled : term.Decimal)
      (read : term.int? = some constant) : term.fold algebra = .ofInt constant := by
    rw [Hook.fold_of_int? respects.fold_token read, spelled constant read]
  obtain ⟨offset, constant, rfl, ⟨linear, read, rfl⟩ | ⟨linear, read, rfl⟩⟩ := of_normalForm? found
  · rw [fold_of_comparisonOf? builtins respects known (fold_linear builtins respects linear same)
      (fixed (Term.decimal_of_stable stableRight) read), shifted]
  · rw [fold_of_comparisonOf? builtins respects known (fixed (Term.decimal_of_stable stableLeft) read)
      (fold_linear builtins respects linear same), ← shifted, Comparison.holds_flip]

end Atoms

section Refutation

variable {atoms : List Atom}

/-- The integer satisfies every bound that the atoms set to the variable. -/
def Leaves (atoms : List Atom) (v : Variable) (value : Int) : Prop :=
  ∀ atom ∈ atoms, ∀ comparison bound, boundOf? atom = some (comparison, v, bound) →
    comparison.holds value bound = true

private theorem add_of_boundOf? {bounds : Bounds} (found : boundOf? atom = some (comparison, v, bound)) :
    bounds.add atom = bounds.insert v (((bounds.get? v).getD {}).restrict comparison bound) := by
  rw [add, show (comparisonOf? atom).bind _ = _ from found]

private theorem add_of_boundOf?_none {bounds : Bounds} (found : boundOf? atom = none) :
    bounds.add atom = bounds := by
  rw [add, show (comparisonOf? atom).bind _ = _ from found]

private theorem contains_add_iff {bounds : Bounds} {value : Int} :
    (((bounds.add atom).get? v).getD {}).Contains value ↔
      ((bounds.get? v).getD {}).Contains value ∧
        ∀ comparison bound, boundOf? atom = some (comparison, v, bound) →
          comparison.holds value bound = true := by
  cases found : boundOf? atom with
  | none =>
    rw [add_of_boundOf?_none found]
    simp
  | some entry =>
    obtain ⟨comparison, w, bound⟩ := entry
    rw [add_of_boundOf? found, Assoc.get?_insert]
    by_cases same : v = w
    · subst same
      rw [if_pos rfl, Option.getD_some, Range.contains_restrict_iff]
      refine and_congr_right fun _ => ⟨fun holds _ _ equal => ?_, fun holds => holds _ _ rfl⟩
      cases equal
      exact holds
    · rw [if_neg same]
      refine (and_iff_left fun _ _ equal => ?_).symm
      cases equal
      exact absurd rfl same

/-- The range of a variable holds the integers that its bounds leave. -/
theorem contains_ofAtoms_iff {value : Int} :
    (((ofAtoms atoms).get? v).getD {}).Contains value ↔ Leaves atoms v value := by
  have every (bounds : Bounds) : (((atoms.foldl add bounds).get? v).getD {}).Contains value ↔
      ((bounds.get? v).getD {}).Contains value ∧ Leaves atoms v value := by
    induction atoms generalizing bounds with
    | nil => exact ⟨fun contains => ⟨contains, nofun⟩, And.left⟩
    | cons atom rest ih =>
      rw [List.foldl_cons, ih, contains_add_iff, and_assoc]
      simp only [Leaves, List.forall_mem_cons]
  refine (every .empty).trans (and_iff_right ?_)
  exact Range.contains_unbounded value

/-- The bounds are refuted exactly when they leave no integer for some variable. -/
theorem refute_eq_false_iff : (ofAtoms atoms).refute = false ↔ ∀ v, ∃ value, Leaves atoms v value := by
  have nonempty (range : Range) : range.isEmpty = false ↔ ∃ value, range.Contains value := by
    rw [← not_iff_not, Bool.not_eq_false, Range.isEmpty_iff, not_exists]
  simp only [← contains_ofAtoms_iff, ← nonempty]
  rw [refute, List.any_eq_false]
  constructor
  · intro open' v
    cases found : (ofAtoms atoms).get? v with
    | none => rfl
    | some range => simpa using open' (v, range) (Assoc.get?_eq_some_iff.mp found)
  · intro open' entry member
    obtain ⟨v, range⟩ := entry
    have left := open' v
    rw [Assoc.get?_eq_some_iff.mpr member] at left
    simpa using left

/-- What an assignment satisfies is not refuted. -/
theorem not_refute (bounded : ∀ atom ∈ atoms, ∀ comparison v bound,
    boundOf? atom = some (comparison, v, bound) → Bounded algebra comparison v bound) :
    (ofAtoms atoms).refute = false := by
  refine refute_eq_false_iff.mpr fun v => ?_
  by_cases integer : ∃ value, algebra.var v = .ofInt value
  · obtain ⟨value, same⟩ := integer
    refine ⟨value, fun atom member comparison bound found => ?_⟩
    rcases bounded atom member comparison v bound found with ⟨other, equal, holds⟩ | ⟨_, never⟩
    · have read : other = value := by simpa using congrArg Term.int? (equal.symm.trans same)
      exact read ▸ holds
    · exact absurd same (never value)
  · -- The variable is no integer, so all its bounds are points that it must not be.
    obtain ⟨value, _, absent⟩ := Range.exists_ge_not_mem 0
      (atoms.filterMap fun atom => (boundOf? atom).map fun (_, _, bound) => bound)
    refine ⟨value, fun atom member comparison bound found => ?_⟩
    rcases bounded atom member comparison v bound found with ⟨other, equal, _⟩ | ⟨rfl, _⟩
    · exact absurd ⟨other, equal⟩ integer
    · have differ : value ≠ bound := by
        intro same
        exact absent (List.mem_filterMap.mpr ⟨atom, member, by rw [found, same]; rfl⟩)
      simpa [Comparison.holds] using differ

end Refutation

end Bounds

section Feasibility

variable {sig : Signature} {loose : String → Prop} {algebra : Term.Algebra Term} {c : Constraint}
  {store : Store}

/-- The local procedure refutes what simplification or the bounds refute. -/
theorem Constraint.decideLocally_eq_unsat_iff : c.decideLocally sig = .unsat ↔
    (c.simplify sig).contradiction = true ∨ (Bounds.ofAtoms (c.simplify sig).atoms).refute = true := by
  unfold Constraint.decideLocally
  dsimp only
  by_cases contradictory : (c.simplify sig).contradiction = true
  · simp [Constraint.isFalse, contradictory]
  · rw [if_neg (show ¬(c.simplify sig).isFalse = true from contradictory)]
    by_cases none : (c.simplify sig).isTrue = true
    · rw [if_pos none]
      have empty : (c.simplify sig).atoms = [] :=
        List.isEmpty_iff.mp (Bool.and_eq_true_iff.mp none).2
      have unbounded : (Bounds.ofAtoms (c.simplify sig).atoms).refute = false := by
        rw [empty]
        rfl
      simp [contradictory, unbounded]
    · rw [if_neg none]
      by_cases refuted : (Bounds.ofAtoms (c.simplify sig).atoms).refute = true
      · simp [refuted]
      · simp [contradictory, refuted]

theorem Constraint.Fulfilled.decideLocally_ne (builtins : sig.HasBuiltins)
    (respects : algebra.Respects sig loose)
    (decimal : ∀ v : Variable, v.sort = .int → (algebra.var v).Decimal)
    (fulfilled : c.Fulfilled sig loose algebra) : c.decideLocally sig ≠ .unsat := by
  have simplified := fulfilled.simplify builtins respects
  have left : (Bounds.ofAtoms (c.simplify sig).atoms).refute = false := by
    refine Bounds.not_refute fun atom member comparison v bound found =>
      Bounds.bounded_of_holds builtins respects ?_ (simplified.stable atom member)
        (simplified.holds atom member) found
    exact decimal v (Bounds.integer_of_boundOf? found)
  rw [ne_eq, Constraint.decideLocally_eq_unsat_iff, simplified.consistent, left]
  decide

/-- A store of the standard configuration, whose answers are those of the local procedure. -/
structure Store.Standard (sig : Signature) (store : Store) : Prop where
  config : store.config = {}
  procedure : store.solver.procedure = .builtin
  deadline : store.solver.deadline = none
  answers : ∀ (c : Constraint) (verdict : Verdict), store.answers[c]? = some verdict →
    verdict = c.decideLocally sig

theorem Store.standard_standard (sig : Signature) : Store.Standard sig .standard :=
  ⟨rfl, rfl, rfl, fun c verdict found => by simp [Store.standard, Store.new] at found⟩

theorem Store.Standard.query (standard : store.Standard sig) (c : Constraint) :
    (Store.query sig c store).1 = .ok (c.decideLocally sig) ∧
      (Store.query sig c store).2.Standard sig := by
  obtain ⟨config, procedure, deadline, answers⟩ := standard
  unfold Store.query
  split
  · next verdict found =>
    rw [Store.lookup?, config] at found
    exact ⟨congrArg _ (answers c verdict found), config, procedure, deadline, answers⟩
  · have asked : Solver.ask sig c store.solver =
        (.ok (c.decideLocally sig), { store.solver with calls := store.solver.calls + 1 }) := by
      simp only [Solver.ask, deadline, procedure, Procedure.builtin, Procedure.ask]
    rw [asked]
    refine ⟨rfl, ?_⟩
    simp only [Store.remember, config, ↓reduceIte]
    refine ⟨rfl, procedure, deadline, fun other verdict found => ?_⟩
    rw [Std.TreeMap.getElem?_insert] at found
    split at found
    · next same =>
      obtain rfl := Std.LawfulEqOrd.eq_of_compare same
      exact (Option.some.inj found).symm
    · exact answers other verdict found

theorem Store.feasible_eq (sig : Signature) (c : Constraint) (store : Store) :
    Store.feasible sig c store =
      if (c.simplify sig).isFalse then (.ok false, store)
      else if (c.simplify sig).isTrue then (.ok true, store)
      else ((Store.query sig (c.simplify sig) store).2.config.feasibility
        (Store.query sig (c.simplify sig) store).1, (Store.query sig (c.simplify sig) store).2) := by
  unfold Store.feasible
  dsimp only [bind, StateT.bind, pure, StateT.pure, get, getThe, MonadStateOf.get, StateT.get]
  split
  · rfl
  · split <;> rfl

theorem Store.Standard.feasible (standard : store.Standard sig) (c : Constraint) :
    (Store.feasible sig c store).2.Standard sig := by
  rw [Store.feasible_eq]
  split
  · exact standard
  · split
    · exact standard
    · exact (standard.query _).2

/-- What was asked before makes no difference to an answer. -/
theorem Store.Standard.feasible_eq (standard : store.Standard sig) (c : Constraint) :
    (Store.feasible sig c store).1 = (Store.feasible sig c .standard).1 := by
  rw [Store.feasible_eq, Store.feasible_eq]
  split
  · rfl
  · split
    · rfl
    · obtain ⟨answer, after⟩ := standard.query (c.simplify sig)
      obtain ⟨answer', after'⟩ := (Store.standard_standard sig).query (c.simplify sig)
      rw [answer, after.config, answer', after'.config]

/-- A constraint that an assignment satisfies is feasible, if integers are assigned as plain decimals. -/
theorem Store.Standard.feasible_of_decimal (standard : store.Standard sig)
    (builtins : sig.HasBuiltins) (respects : algebra.Respects sig loose)
    (decimal : ∀ v : Variable, v.sort = .int → (algebra.var v).Decimal)
    (fulfilled : c.Fulfilled sig loose algebra) : (Store.feasible sig c store).1 = .ok true := by
  have simplified := fulfilled.simplify builtins respects
  rw [Store.feasible_eq]
  simp only [Constraint.isFalse, simplified.consistent, Bool.false_eq_true, ↓reduceIte]
  split
  · rfl
  · obtain ⟨answer, after⟩ := standard.query (c.simplify sig)
    rw [answer, after.config]
    have consistent := simplified.decideLocally_ne builtins respects decimal
    cases verdict : (c.simplify sig).decideLocally sig with
    | sat => rfl
    | unsat => exact absurd verdict consistent
    | unknown reason => rfl

/-- A constraint that an assignment satisfies is feasible. -/
theorem Store.Standard.feasible_of_fulfilled (standard : store.Standard sig)
    (builtins : sig.HasBuiltins) (respects : algebra.Respects sig loose)
    (decimal : ∀ v, sig.Stable loose (algebra.var v)) (fulfilled : c.Fulfilled sig loose algebra) :
    (Store.feasible sig c store).1 = .ok true :=
  standard.feasible_of_decimal builtins respects (fun v _ => Term.decimal_of_stable (decimal v)) fulfilled

end Feasibility

end Reach
