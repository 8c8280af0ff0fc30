import Reach.Proofs.Entailment
import Reach.Proofs.Exposure
import Reach.Proofs.MostGeneral
import Reach.Proofs.SubjectReduction

/-!
Terms that always have a value. The builtins on numbers, booleans and strings give a result for all values
of the sorts that they are declared for, division apart, and the comparisons of terms do for all ground
terms. So a term of constructors and such builtins evaluates to a term of constructors as soon as its
variables have values.
-/

namespace Reach

/-- A number, a boolean or a string. -/
inductive Term.Scalar : TermSort → Term → Prop
  | int (number : Int) : Scalar .int (.ofInt number)
  | bool (value : Bool) : Scalar .bool (.ofBool value)
  | string (text : String) : Scalar .string (.ofString text)

/-- The sorts of numbers, booleans and strings. -/
def TermSort.isScalar : TermSort → Bool
  | .int | .bool | .string => true
  | _ => false

/-- A token with this text is a value of the sort. -/
def TermSort.Spells : TermSort → String → Prop
  | .int, text => ∃ number, text = Numeral.render number
  | .bool, text => text = "true" ∨ text = "false"
  | _, _ => True

namespace Hook

/-- The sorts of the arguments for which the builtin always has a result, if they are scalar. -/
def scalars : Hook → Option (List TermSort)
  | intAdd | intSub | intMul | intMin | intMax | intCompare _ => some [.int, .int]
  | intAbs => some [.int]
  | boolNot => some [.bool]
  | boolAnd | boolOr | boolImplies | boolXor | boolEq => some [.bool, .bool]
  | stringConcat | stringEq => some [.string, .string]
  | stringLength | sha256 => some [.string]
  | _ => none

/-- The builtin has a result for all scalars. -/
def isScalar (hook : Hook) : Bool :=
  hook.scalars.isSome

/-- The builtin has a result for all scalars, or for all ground terms. -/
def isTotal : Hook → Bool
  | termEq | termNe => true
  | hook => hook.isScalar

variable {hook : Hook} {sorts : List TermSort} {args : List Term} {a b : Term}

theorem isTotal_of_isScalar (scalar : hook.isScalar = true) : hook.isTotal = true := by
  cases hook <;> first | rfl | exact scalar

/-- A total builtin is one on scalars, or it compares terms. -/
theorem isTotal_cases (total : hook.isTotal = true) :
    (∃ sorts, hook.scalars = some sorts) ∨ hook = termEq ∨ hook = termNe := by
  cases hook <;> first | exact .inr (.inl rfl) | exact .inr (.inr rfl) |
    exact .inl (Option.isSome_iff_exists.mp total)

private theorem isMap_of_isTotal (total : hook.isTotal = true) : hook.isMap = false := by
  cases hook <;> first | rfl | cases total

theorem isScalar_sort (hook : Hook) (total : hook.isTotal = true) : hook.sort.isScalar = true := by
  cases hook <;> first | rfl | cases total

theorem isScalar_of_mem_scalars (known : hook.scalars = some sorts) {sort : TermSort}
    (member : sort ∈ sorts) : sort.isScalar = true := by
  cases hook <;> cases known <;> simp at member <;> aesop

/-- Builtins on scalars have a result. -/
theorem exists_apply (known : hook.scalars = some sorts) (given : List.Forall₂ Term.Scalar sorts args) :
    ∃ result, hook.apply args = some result := by
  have one {sort : TermSort} (given : List.Forall₂ Term.Scalar [sort] args) :
      ∃ a, args = [a] ∧ Term.Scalar sort a := by
    obtain ⟨a, _, scalar, ⟨⟩, rfl⟩ := List.forall₂_cons_left_iff.mp given
    exact ⟨a, rfl, scalar⟩
  have two {first second : TermSort} (given : List.Forall₂ Term.Scalar [first, second] args) :
      ∃ a b, args = [a, b] ∧ Term.Scalar first a ∧ Term.Scalar second b := by
    obtain ⟨a, _, scalar, rest, rfl⟩ := List.forall₂_cons_left_iff.mp given
    obtain ⟨b, _, scalar', ⟨⟩, rfl⟩ := List.forall₂_cons_left_iff.mp rest
    exact ⟨a, b, rfl, scalar, scalar'⟩
  cases hook <;> cases known
  case intAbs | boolNot | stringLength | sha256 =>
    obtain ⟨_, rfl, ⟨⟩⟩ := one given
    simp [apply]
  case boolAnd | boolOr | boolImplies =>
    obtain ⟨_, _, rfl, ⟨⟩, ⟨⟩⟩ := two given
    rename_i value value'
    cases value <;> cases value' <;> exact ⟨_, rfl⟩
  all_goals
    obtain ⟨_, _, rfl, ⟨⟩, ⟨⟩⟩ := two given
    simp [apply, onBoth]

/-- Ground terms can be compared. -/
theorem exists_apply_of_ground (compares : hook = termEq ∨ hook = termNe) (left : a.ground = true)
    (right : b.ground = true) : ∃ result, hook.apply [a, b] = some result := by
  rcases compares with rfl | rfl <;> simp [apply, onGround, left, right]

end Hook

/-- Terms without collections that apply constructors and some of the builtins, and whose tokens are
values. -/
def Signature.computed (sig : Signature) (hooks : Hook → Bool) : Term.Fragment where
  label label _ := sig.isFunction label = false ∨
    ∃ name hook, sig.hook? label = some name ∧ Hook.ofName? name = some hook ∧ hooks hook = true
  token sort text := sort.Spells text
  kind _ := False

/-- A well-sorted such term. -/
structure Term.Computed (sig : Signature) (hooks : Hook → Bool) (term : Term) : Prop where
  checked : sig.check term = .ok ()
  within : term.Within (sig.computed hooks)

/-- Variables stand for such terms of their sorts. -/
structure Subst.Computed (sig : Signature) (hooks : Hook → Bool) (s : Subst) : Prop where
  image : ∀ v, (s.image v).Computed sig hooks
  sorted : s.Sorted

/-- A well-sorted ground term of constructors and values. -/
structure Term.Datum (sig : Signature) (term : Term) : Prop
    extends Term.Computed sig (fun _ => false) term where
  ground : term.ground = true

/-- Constructors beside the builtins, none of which makes scalars. -/
structure Signature.Elementary (sig : Signature) : Prop extends sig.Constructive where
  made : ∀ label decl, sig.labels.get? label = some decl → decl.function = false →
    decl.sort.isScalar = false

/-- Each variable has a value of its sort. -/
structure Signature.Supplies (sig : Signature) (assign : Variable → Term) : Prop where
  datum : ∀ v, (assign v).Datum sig
  sorted : ∀ v : Variable, v.sort.accepts (assign v).sort = true

namespace Signature.Elementary

variable {sig : Signature} {decls : List Declaration} {label name : String} {hook : Hook}

theorem of_declareAll (constructors : ∀ decl ∈ decls, decl.function = false ∧ decl.hook = none ∧
    decl.sort.isScalar = false) (declared : builtin.declareAll decls = .ok sig) : sig.Elementary := by
  have constructive := constructive_builtin.declareAll
    (fun decl member => ⟨(constructors decl member).1, (constructors decl member).2.1⟩) declared
  refine { constructive with made := ?_ }
  refine holds_of_declareAll (fun sig => ∀ label decl,
    sig.labels.get? label = some decl → decl.function = false → decl.sort.isScalar = false)
    (fun label decl found free => ?_)
    (fun before next decl member made step label other found free => ?_) declared
  · have function : decl.function = true :=
      builtin_function (label, decl) (Assoc.get?_eq_some_iff.mp found)
    cases function.symm.trans free
  · rw [(get?_of_declare step label).2] at found
    split at found
    · cases found
      exact (constructors decl member).2.2
    · exact made label other found free

/-- The declarations of the builtins say what they take and give. -/
theorem declared_builtin : ∀ entry ∈ Signature.builtin.labels.entries, ∀ name ∈ entry.2.hook,
    ∀ hook ∈ Hook.ofName? name, entry.2.sort = hook.sort ∧ entry.2.function = true ∧
      (∀ sorts ∈ hook.scalars, entry.2.args = sorts) ∧
      (hook = .termEq ∨ hook = .termNe → entry.2.args.length = 2) := by
  decide

variable (elementary : sig.Elementary)
include elementary

theorem builtinHooks : sig.BuiltinHooks := by
  intro label decl found hooked
  refine (elementary.constructors label decl found).resolve_right fun ⟨_, unhooked⟩ => ?_
  rw [unhooked] at hooked
  cases hooked

theorem hooksFunctions : sig.HooksFunctions := by
  intro label free
  cases found : sig.labels.get? label with
  | none => rw [hook?, found]; rfl
  | some decl =>
    rw [isFunction, found, Option.any_some] at free
    rw [hook?, found]
    rcases elementary.constructors label decl found with given | ⟨_, unhooked⟩
    · have function : decl.function = true :=
        builtin_function (label, decl) (Assoc.get?_eq_some_iff.mp given)
      cases function.symm.trans free
    · exact unhooked

/-- Only functions make scalars. -/
theorem flat {sort : TermSort} (scalar : sort.isScalar = true) : sig.Flat sort := by
  refine ⟨fun top => (nomatch top ▸ scalar), fun label declared => ?_⟩
  obtain ⟨decl, found, rfl⟩ := declared
  rw [isFunction, found, Option.any_some]
  by_contra free
  rw [elementary.made label decl found (by simpa using free)] at scalar
  cases scalar

theorem declared (hooked : sig.hook? label = some name) (named : Hook.ofName? name = some hook) :
    ∃ decl, sig.labels.get? label = some decl ∧ decl.sort = hook.sort ∧ decl.function = true ∧
      (∀ sorts ∈ hook.scalars, decl.args = sorts) ∧
      (hook = .termEq ∨ hook = .termNe → decl.args.length = 2) := by
  obtain ⟨decl, found, holds⟩ := Option.bind_eq_some_iff.mp hooked
  have given := elementary.builtinHooks label decl found (Option.isSome_iff_exists.mpr ⟨name, holds⟩)
  exact ⟨decl, found, declared_builtin (label, decl) (Assoc.get?_eq_some_iff.mp given) name holds hook
    named⟩

end Signature.Elementary

namespace Term

variable {sig : Signature} {hooks wider : Hook → Bool} {term : Term} {label : String} {sort : TermSort}
  {args : List Term} {assign : Variable → Term} {s : Subst} {v : Variable}

/-- Without collections there is nothing to put into canonical form. -/
theorem canonical_of_bare (bare : term.Within .bare) : term.Canonical := by
  induction term using induct with
  | var v => exact .var v
  | token sort value => exact .token sort value
  | app label sort args ih =>
    exact .app label sort fun arg member => ih arg member ((Everywhere.app_iff.mp bare).2 arg member)
  | collection kind entries frame ihEntries ihFrame => exact absurd bare.here id

/-- Without collections there are no keys that could repeat. -/
theorem check_of_contains (contains : sig.sorts.Contains term) (bare : term.Within .bare) :
    sig.check term = .ok () := by
  refine (Signature.check_eq_ok_iff sig term).mpr ((contains.and bare).mono fun node ⟨here, allowed⟩ => ?_)
  cases node with
  | app label sort args => exact here
  | collection kind entries frame => exact absurd allowed id
  | _ => trivial

namespace Computed

theorem bare (computed : term.Computed sig hooks) : term.Within .bare :=
  computed.within.mono fun node allowed => by
    cases node with
    | collection kind entries frame => exact allowed
    | _ => trivial

theorem canonical (computed : term.Computed sig hooks) : term.Canonical :=
  canonical_of_bare computed.bare

theorem contains (computed : term.Computed sig hooks) : sig.sorts.Contains term :=
  Signature.contains_of_check computed.checked

theorem mono (weaker : ∀ hook, hooks hook = true → wider hook = true)
    (computed : term.Computed sig hooks) : term.Computed sig wider where
  checked := computed.checked
  within := computed.within.mono fun node allowed => by
    cases node with
    | app label sort args =>
      exact allowed.imp_right fun ⟨name, hook, hooked, named, known⟩ =>
        ⟨name, hook, hooked, named, weaker hook known⟩
    | _ => exact allowed

theorem var (sig : Signature) (hooks : Hook → Bool) (v : Variable) : (Term.var v).Computed sig hooks :=
  ⟨rfl, Everywhere.var_iff.mpr trivial⟩

theorem token_iff {text : String} : (Term.token sort text).Computed sig hooks ↔ sort.Spells text :=
  ⟨fun computed => computed.within.here, fun spells => ⟨rfl, Everywhere.token_iff.mpr spells⟩⟩

theorem app_iff : (Term.app label sort args).Computed sig hooks ↔
    sig.Fits (.app label sort args) ∧ (sig.computed hooks).label label sort ∧
      ∀ arg ∈ args, arg.Computed sig hooks := by
  constructor
  · rintro ⟨checked, within⟩
    obtain ⟨fits, below⟩ := Everywhere.app_iff.mp ((Signature.check_eq_ok_iff _ _).mp checked)
    obtain ⟨allowed, inner⟩ := Everywhere.app_iff.mp within
    exact ⟨fits, allowed, fun arg member =>
      ⟨(Signature.check_eq_ok_iff _ _).mpr (below arg member), inner arg member⟩⟩
  · rintro ⟨fits, allowed, inner⟩
    exact ⟨(Signature.check_eq_ok_iff _ _).mpr (Everywhere.app_iff.mpr ⟨fits, fun arg member =>
      (Signature.check_eq_ok_iff _ _).mp (inner arg member).checked⟩),
      Everywhere.app_iff.mpr ⟨allowed, fun arg member => (inner arg member).within⟩⟩

/-- What a builtin gives is of the same kind as its arguments. -/
theorem of_callHook (elementary : sig.Elementary) {result : Term}
    (fits : sig.Fits (.app label sort args)) (inner : ∀ arg ∈ args, arg.Computed sig hooks)
    (called : sig.callHook label args = some result) :
    result.Computed sig hooks ∧ sort.accepts result.sort = true := by
  have has := elementary.builtinHooks.sorted.has_of_callHook fits
    (fun arg member => (inner arg member).contains) called
  have within : result.Within (sig.computed hooks) :=
    (Signature.result_of_callHook called).everywhere (fun arg member => (inner arg member).within)
      (fun value => by cases value <;> simp [Term.ofBool, Fragment.allows, Signature.computed, TermSort.Spells])
      (fun number => ⟨number, rfl⟩) (fun _ => trivial) fun _ _ _ _ _ => id
  refine ⟨⟨check_of_contains has.contains (within.mono fun node allowed => ?_), within⟩, has.fits⟩
  cases node with
  | collection kind entries frame => exact allowed
  | _ => trivial

theorem fits_map {f : Term → Term} (fits : sig.Fits (.app label sort args))
    (sorts : ∀ arg ∈ args, arg.sort.accepts (f arg).sort = true) :
    sig.Fits (.app label sort (args.map f)) :=
  sig.sorts.app_map f fits sorts

/-- Evaluation stays among such terms, and keeps their sorts. -/
theorem fold (elementary : sig.Elementary) (computed : term.Computed sig hooks)
    (images : ∀ v ∈ term.vars, (assign v).Computed sig hooks ∧ v.sort.accepts (assign v).sort = true) :
    (term.fold (sig.assigned assign)).Computed sig hooks ∧
      term.sort.accepts (term.fold (sig.assigned assign)).sort = true := by
  induction term using induct with
  | var v => exact images v (by simp)
  | token sort value => exact ⟨computed, TermSort.accepts_self sort⟩
  | app label sort args ih =>
    obtain ⟨fits, allowed, inner⟩ := app_iff.mp computed
    have each (arg : Term) (member : arg ∈ args) := ih arg member (inner arg member) fun v occurs =>
      images v (mem_vars_app.mpr ⟨arg, member, occurs⟩)
    have fits := fits_map fits fun arg member => (each arg member).2
    have parts : ∀ image ∈ args.map (fun arg => arg.fold (sig.assigned assign)), image.Computed sig hooks :=
      List.forall_mem_map.mpr fun arg member => (each arg member).1
    rw [fold_app]
    show ((sig.callHook label _).getD _).Computed sig hooks ∧
      sort.accepts ((sig.callHook label _).getD _).sort = true
    cases called : sig.callHook label (args.map (·.fold (sig.assigned assign))) with
    | none => exact ⟨app_iff.mpr ⟨fits, allowed, parts⟩, TermSort.accepts_self sort⟩
    | some result => exact of_callHook elementary fits parts called
  | collection kind entries frame ihEntries ihFrame => exact absurd computed.bare.here id

theorem evalBuiltins (elementary : sig.Elementary) (computed : term.Computed sig hooks) :
    (sig.evalBuiltins term).Computed sig hooks ∧
      term.sort.accepts (sig.evalBuiltins term).sort = true :=
  @fold sig hooks term .var elementary computed fun v _ => ⟨var sig hooks v, TermSort.accepts_self v.sort⟩

theorem apply (computed : term.Computed sig hooks)
    (images : ∀ v ∈ term.vars, (s.image v).Computed sig hooks) (sorted : s.Sorted) :
    (s.apply term).Computed sig hooks where
  checked := Signature.check_apply computed.canonical computed.checked
    (computed.bare.mono fun node allowed => by
      cases node with
      | collection kind entries frame => exact absurd allowed id
      | _ => trivial)
    sorted fun v occurs => (images v occurs).checked
  within := computed.within.apply fun v occurs => (images v occurs).within

/-- Where a builtin on scalars is applied, all variables below are scalar. -/
theorem flat_of_isCall (elementary : sig.Elementary) (computed : term.Computed sig Hook.isScalar)
    (applied : sig.isCall term = true) : ∀ v ∈ term.vars, sig.Flat v.sort := by
  induction term using induct with
  | app label sort args ih =>
    obtain ⟨⟨decl, found, _, size, accepted⟩, allowed, inner⟩ := app_iff.mp computed
    have function : sig.isFunction label = true := applied
    rcases allowed with free | ⟨name, hook, hooked, named, scalar⟩
    · cases function.symm.trans free
    · obtain ⟨sorts, known⟩ := Option.isSome_iff_exists.mp scalar
      obtain ⟨other, found', _, _, takes, _⟩ := elementary.declared hooked named
      obtain rfl := Option.some.inj (found.symm.trans found')
      intro v occurs
      obtain ⟨arg, member, occurs⟩ := mem_vars_app.mp occurs
      have listed := member
      rw [← List.map_snd_zip (Nat.le_of_eq size.symm)] at listed
      obtain ⟨⟨expected, arg⟩, paired, rfl⟩ := List.mem_map.mp listed
      have scalar := Hook.isScalar_of_mem_scalars known (takes sorts known ▸ (List.of_mem_zip paired).1)
      have flat := elementary.flat scalar
      have same : expected = arg.sort := by
        simpa [TermSort.accepts, flat.1] using accepted _ paired
      rw [same] at flat
      -- An argument of a scalar sort is a variable, a token or again the application of a builtin.
      cases arg with
      | var w =>
        obtain rfl := List.mem_singleton.mp occurs
        exact flat
      | token sort value => cases occurs
      | app label' sort' args' =>
        refine ih _ member (inner _ member) ?_ v occurs
        exact flat.2 label' (Signature.within_declared (inner _ member).checked).here
      | collection kind entries frame => exact absurd (inner _ member).bare.here id
  | _ => cases applied

theorem plain (computed : term.Computed sig hooks)
    (total : ∀ hook, hooks hook = true → hook.isTotal = true) (functions : sig.HooksFunctions) :
    term.Within sig.plain := by
  refine computed.within.mono fun node allowed => ?_
  cases node with
  | app label sort args =>
    intro name hook hooked named
    rcases allowed with free | ⟨name', hook', hooked', named', known⟩
    · rw [functions label free] at hooked
      cases hooked
    · cases hooked.symm.trans hooked'
      cases named.symm.trans named'
      exact Hook.isMap_of_isTotal (total hook known)
  | token sort value =>
    rintro rfl
    exact allowed
  | _ => trivial

end Computed

/-- Where nothing is computed, a term stays as it is. -/
theorem Computed.fold_eq (elementary : sig.Elementary) (computed : term.Computed sig fun _ => false)
    (same : ∀ v ∈ term.vars, assign v = .var v) : term.fold (sig.assigned assign) = term := by
  refine fold_eq_self computed.canonical rfl rfl same (computed.within.mono fun node allowed => ?_)
  cases node with
  | app label sort args =>
    rcases allowed with free | ⟨_, _, _, _, none⟩
    · have unhooked : sig.callHook label args = none := by
        simp [Signature.callHook, elementary.hooksFunctions label free]
      exact congrArg (Option.getD · _) unhooked
    · cases none
  | _ => trivial

namespace Datum

theorem scalar (elementary : sig.Elementary) (datum : term.Datum sig)
    (flat : term.sort.isScalar = true) : Scalar term.sort term := by
  cases term with
  | var v => cases datum.ground
  | token sort text =>
    have spells := Computed.token_iff.mp datum.toComputed
    cases sort with
    | int =>
      obtain ⟨number, rfl⟩ := spells
      exact .int number
    | bool =>
      rcases spells with rfl | rfl
      · exact .bool true
      · exact .bool false
    | string => exact .string text
    | _ => cases flat
  | app label sort args =>
    obtain ⟨⟨decl, found, same, _⟩, allowed, _⟩ := Computed.app_iff.mp datum.toComputed
    rcases allowed with free | ⟨_, _, _, _, none⟩
    · cases ((elementary.flat flat).2 label ⟨decl, found, same⟩).symm.trans free
    · cases none
  | collection kind entries frame => exact absurd datum.bare.here id

theorem of_sort (elementary : sig.Elementary) (datum : term.Datum sig) {sort : TermSort}
    (scalar : sort.isScalar = true) (accepted : sort.accepts term.sort = true) : Scalar sort term := by
  have same : sort = term.sort := by simpa [TermSort.accepts, (elementary.flat scalar).1] using accepted
  exact same ▸ datum.scalar elementary (same ▸ scalar)

/-- A value is its own value, whatever the variables stand for. -/
theorem fold_eq (elementary : sig.Elementary) (datum : term.Datum sig) (assign : Variable → Term) :
    term.fold (sig.assigned assign) = term := by
  refine datum.toComputed.fold_eq elementary fun v occurs => ?_
  rw [(ground_iff_vars_eq_nil term).mp datum.ground] at occurs
  cases occurs

end Datum

/-- Where the variables have values, a term of constructors and total builtins has one, of its sort. -/
theorem Computed.datum (elementary : sig.Elementary) (supplies : sig.Supplies assign)
    (total : ∀ hook, hooks hook = true → hook.isTotal = true) (computed : term.Computed sig hooks) :
    (term.fold (sig.assigned assign)).Datum sig ∧
      term.sort.accepts (term.fold (sig.assigned assign)).sort = true := by
  have ground (term : Term) : (term.fold (sig.assigned assign)).ground = true :=
    Signature.ground_assigned (fun v => (supplies.datum v).ground) term
  induction term using induct with
  | var v => exact ⟨supplies.datum v, supplies.sorted v⟩
  | token sort value =>
    exact ⟨⟨Computed.token_iff.mpr (Computed.token_iff.mp computed), rfl⟩, TermSort.accepts_self sort⟩
  | app label sort args ih =>
    have whole := ground (.app label sort args)
    obtain ⟨fits, allowed, inner⟩ := Computed.app_iff.mp computed
    have each (arg : Term) (member : arg ∈ args) := ih arg member (inner arg member)
    have fits := Computed.fits_map fits fun arg member => (each arg member).2
    have parts : ∀ image ∈ args.map (fun arg => arg.fold (sig.assigned assign)), image.Datum sig :=
      List.forall_mem_map.mpr fun arg member => (each arg member).1
    rw [fold_app] at whole ⊢
    change ((sig.callHook label _).getD _).ground = true at whole
    show ((sig.callHook label _).getD _).Datum sig ∧ sort.accepts ((sig.callHook label _).getD _).sort = true
    generalize args.map (fun arg => arg.fold (sig.assigned assign)) = images at *
    rcases allowed with free | ⟨name, hook, hooked, named, known⟩
    · have unhooked : sig.callHook label images = none := by
        simp [Signature.callHook, elementary.hooksFunctions label free]
      rw [unhooked, Option.getD_none] at whole ⊢
      exact ⟨⟨Computed.app_iff.mpr ⟨fits, .inl free, fun arg member => (parts arg member).toComputed⟩,
        whole⟩, TermSort.accepts_self sort⟩
    · -- The arguments are such that the builtin has a result.
      have fits' := fits
      obtain ⟨decl, found, _, size, accepted⟩ := fits
      obtain ⟨other, found', _, _, takes, compares⟩ := elementary.declared hooked named
      obtain rfl := Option.some.inj (found.symm.trans found')
      have made : ∃ result, hook.apply images = some result := by
        rcases Hook.isTotal_cases (total hook known) with ⟨sorts, scalar⟩ | comparison
        · refine Hook.exists_apply scalar (List.forall₂_iff_zip.mpr ⟨takes sorts scalar ▸ size, ?_⟩)
          intro expected arg paired
          have listed := List.of_mem_zip paired
          exact (parts arg listed.2).of_sort elementary
            (Hook.isScalar_of_mem_scalars scalar listed.1)
            (accepted (expected, arg) (takes sorts scalar ▸ paired))
        · obtain ⟨a, b, rfl⟩ := List.length_eq_two.mp (size.symm.trans (compares comparison))
          exact Hook.exists_apply_of_ground comparison (parts a (by simp)).ground (parts b (by simp)).ground
      obtain ⟨result, made⟩ := made
      have called : sig.callHook label images = some result := by
        simp only [Signature.callHook, hooked, Hook.applyNamed, named, Option.bind_eq_bind,
          Option.bind_some, made]
      rw [called, Option.getD_some] at whole ⊢
      obtain ⟨computed, sorted⟩ := Computed.of_callHook elementary fits'
        (fun arg member => (parts arg member).toComputed) called
      exact ⟨⟨computed, whole⟩, sorted⟩
  | collection kind entries frame ihEntries ihFrame => exact absurd computed.bare.here id

end Term

namespace Subst.Computed

variable {sig : Signature} {hooks wider : Hook → Bool} {s other : Subst} {term : Term}

theorem empty (sig : Signature) (hooks : Hook → Bool) : Computed sig hooks Assoc.empty :=
  ⟨fun v => .var sig hooks v, nofun⟩

theorem of_get? (bound : ∀ v term, s.get? v = some term →
    term.Computed sig hooks ∧ v.sort.accepts term.sort = true) : s.Computed sig hooks := by
  refine ⟨fun v => ?_, fun v term found => (bound v term found).2⟩
  cases found : s.get? v with
  | none =>
    rw [image_of_get?_none found]
    exact .var sig hooks v
  | some term =>
    rw [Subst.image, found]
    exact (bound v term found).1

theorem get? (computed : s.Computed sig hooks) {v : Variable} (found : s.get? v = some term) :
    term.Computed sig hooks ∧ v.sort.accepts term.sort = true := by
  have image := computed.image v
  rw [Subst.image, found] at image
  exact ⟨image, computed.sorted v term found⟩

theorem mono (weaker : ∀ hook, hooks hook = true → wider hook = true) (computed : s.Computed sig hooks) :
    s.Computed sig wider :=
  ⟨fun v => (computed.image v).mono weaker, computed.sorted⟩

theorem canonical (computed : s.Computed sig hooks) : s.Canonical :=
  fun _ _ found => (computed.get? found).1.canonical

theorem apply (computed : s.Computed sig hooks) (inner : term.Computed sig hooks) :
    (s.apply term).Computed sig hooks :=
  inner.apply (fun v _ => computed.image v) computed.sorted

theorem restrict (computed : s.Computed sig hooks) (keep : Variable → Bool) :
    Subst.Computed sig hooks (s.restrict keep) := by
  refine of_get? fun v term found => computed.get? ?_
  rw [Assoc.get?_restrict] at found
  split at found
  · exact found
  · cases found

theorem compose (computed : s.Computed sig hooks) (later : other.Computed sig hooks) :
    (s.compose other).Computed sig hooks where
  image v := by
    rw [image_compose]
    exact later.apply (computed.image v)
  sorted := computed.sorted.compose later.sorted computed.canonical

end Subst.Computed

end Reach
