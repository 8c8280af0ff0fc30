import Reach.Proofs.Agreement
import Reach.Proofs.Evaluation
import Reach.Proofs.WellSorted

/-!
Signatures that have the builtin labels, which compute what their names say. Where there are only
constructors beside them, a label is a function exactly when it is hooked.
-/

namespace Reach.Signature

/-- The builtin labels are declared as they come. -/
structure HasBuiltins (sig : Signature) : Prop where
  builtin : ∀ label decl, Signature.builtin.labels.get? label = some decl →
    sig.labels.get? label = some decl

/-- The builtin labels, and constructors besides. -/
structure Constructive (sig : Signature) : Prop extends sig.HasBuiltins where
  constructors : ∀ label decl, sig.labels.get? label = some decl →
    Signature.builtin.labels.get? label = some decl ∨ decl.function = false ∧ decl.hook = none

/-- Only functions are hooked. -/
def HooksFunctions (sig : Signature) : Prop :=
  ∀ label, sig.isFunction label = false → sig.hook? label = none

section Declaring

variable {sig next : Signature} {decl : Declaration} {decls : List Declaration}

theorem constructive_builtin : Constructive builtin :=
  ⟨⟨fun _ _ => id⟩, fun _ _ => .inl⟩

theorem get?_of_declare (declared : sig.declare decl = .ok next) (label : String) :
    sig.labels.get? decl.name = none ∧
      next.labels.get? label = if label = decl.name then some decl else sig.labels.get? label := by
  unfold declare at declared
  split at declared
  · cases declared
  · next absent =>
    cases declared
    refine ⟨?_, Assoc.get?_insert _ _ _ _⟩
    simpa [Assoc.contains] using absent

theorem HasBuiltins.declare (builtins : sig.HasBuiltins) (declared : sig.declare decl = .ok next) :
    next.HasBuiltins := by
  refine ⟨fun label other found => ?_⟩
  obtain ⟨absent, lookup⟩ := get?_of_declare declared label
  have before := builtins.builtin label other found
  rw [lookup, if_neg, before]
  intro same
  rw [same, absent] at before
  cases before

theorem Constructive.declare (constructive : sig.Constructive)
    (plain : decl.function = false ∧ decl.hook = none) (declared : sig.declare decl = .ok next) :
    next.Constructive := by
  refine ⟨constructive.toHasBuiltins.declare declared, fun label other found => ?_⟩
  obtain ⟨_, lookup⟩ := get?_of_declare declared label
  rw [lookup] at found
  split at found
  · cases found
    exact .inr plain
  · exact constructive.constructors label other found

theorem HooksFunctions.declare (hooks : sig.HooksFunctions)
    (function : decl.function = false → decl.hook = none) (declared : sig.declare decl = .ok next) :
    next.HooksFunctions := by
  intro label free
  obtain ⟨_, lookup⟩ := get?_of_declare declared label
  rw [isFunction, lookup] at free
  rw [hook?, lookup]
  split at free
  · next same =>
    rw [if_pos same]
    exact function free
  · next differs =>
    rw [if_neg differs]
    exact hooks label free

/-- What each declaration keeps holds of the whole signature. -/
theorem holds_of_declareAll (holds : Signature → Prop) (start : holds sig)
    (declare : ∀ sig next, ∀ decl ∈ decls, holds sig → sig.declare decl = .ok next → holds next)
    (declared : sig.declareAll decls = .ok next) : holds next := by
  induction decls generalizing sig with
  | nil =>
    cases declared
    exact start
  | cons first rest ih =>
    obtain ⟨middle, step, declared⟩ := bind_eq_ok_iff.mp declared
    refine ih (declare sig middle first List.mem_cons_self start step) ?_ declared
    exact fun sig next decl member => declare sig next decl (List.mem_cons_of_mem _ member)

theorem Constructive.declareAll (constructive : sig.Constructive)
    (plain : ∀ decl ∈ decls, decl.function = false ∧ decl.hook = none)
    (declared : sig.declareAll decls = .ok next) : next.Constructive :=
  holds_of_declareAll Constructive constructive
    (fun _ _ decl member before step => before.declare (plain decl member) step) declared

theorem HasBuiltins.declareAll (builtins : sig.HasBuiltins)
    (declared : sig.declareAll decls = .ok next) : next.HasBuiltins :=
  holds_of_declareAll HasBuiltins builtins (fun _ _ _ _ before step => before.declare step) declared

theorem HooksFunctions.declareAll (hooks : sig.HooksFunctions)
    (functions : ∀ decl ∈ decls, decl.function = false → decl.hook = none)
    (declared : sig.declareAll decls = .ok next) : next.HooksFunctions :=
  holds_of_declareAll HooksFunctions hooks
    (fun _ _ decl member before step => before.declare (functions decl member) step) declared

end Declaring

namespace HasBuiltins

variable {sig : Signature} (builtins : sig.HasBuiltins)
include builtins

theorem hook?_eq {label name : String} (hooked : Signature.builtin.hook? label = some name) :
    sig.hook? label = some name := by
  obtain ⟨decl, found, hook⟩ := Option.bind_eq_some_iff.mp hooked
  rw [hook?, builtins.builtin label decl found]
  exact hook

theorem callHook_eq {label name : String} (hook : Hook)
    (hooked : Signature.builtin.hook? label = some name) (named : Hook.ofName? name = some hook)
    (args : List Term) : sig.callHook label args = hook.apply args := by
  simp only [callHook, Hook.applyNamed, builtins.hook?_eq hooked, named, Option.bind_eq_bind,
    Option.bind_some]

theorem callHook_and (a b : Term) :
    sig.callHook Label.boolAnd [a, b] = Hook.conjunction a b :=
  builtins.callHook_eq .boolAnd rfl rfl _

theorem callHook_not (a : Term) :
    sig.callHook Label.boolNot [a] = a.bool?.map fun value => .ofBool !value :=
  builtins.callHook_eq .boolNot rfl rfl _

end HasBuiltins

theorem builtin_function : ∀ entry ∈ Signature.builtin.labels.entries, entry.2.function = true := by
  decide

theorem hooksFunctions_builtin : builtin.HooksFunctions := by
  intro label free
  cases found : builtin.labels.get? label with
  | none =>
    rw [hook?, found]
    rfl
  | some decl =>
    have holds : decl.function = true := builtin_function (label, decl) (Assoc.get?_eq_some_iff.mp found)
    rw [isFunction, found, Option.any_some, holds] at free
    cases free

end Reach.Signature
