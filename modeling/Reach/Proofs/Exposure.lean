import Reach.Proofs.Correspondence
import Reach.Proofs.Depth

/-!
What of a term stands outside of function applications. Substitution puts the exposed parts of an image
in the place of an exposed variable and leaves the other parts where they are. Where constructors and
tokens are left alone, an exposed part has a smaller value than the term around it.
-/

namespace Reach

/-- The part stands in a term without collections, and no function is applied around it. -/
inductive Term.Exposed (sig : Signature) (part : Term) : Term → Prop
  | root : Exposed sig part part
  | arg {label : String} {sort : TermSort} {args : List Term} {arg : Term}
      (constructor : sig.isFunction label = false) (member : arg ∈ args)
      (inner : Exposed sig part arg) : Exposed sig part (.app label sort args)

/-- No constructor makes terms of this sort. -/
def Signature.Flat (sig : Signature) (sort : TermSort) : Prop :=
  sort ≠ .top ∧ ∀ label, sig.declared.label label sort → sig.isFunction label = true

/-- The fold leaves tokens and constructors alone. -/
structure Term.Algebra.Constructive (sig : Signature) (algebra : Term.Algebra Term) : Prop where
  normalizing : algebra.Normalizing
  token : algebra.token = .token
  app : ∀ label sort args, sig.isFunction label = false →
    algebra.app label sort args = .app label sort args

namespace Term

variable {sig : Signature} {algebra : Algebra Term} {holds : Term → Prop} {label : String}
  {sort : TermSort} {args : List Term} {part call term : Term} {s : Subst} {v w : Variable}

namespace Exposed

theorem var_iff : Exposed sig part (var v) ↔ part = var v :=
  ⟨fun exposed => by cases exposed; rfl, fun same => same ▸ .root⟩

theorem token_iff {value : String} : Exposed sig part (token sort value) ↔ part = token sort value :=
  ⟨fun exposed => by cases exposed; rfl, fun same => same ▸ .root⟩

theorem app_iff : Exposed sig part (app label sort args) ↔
    part = app label sort args ∨ sig.isFunction label = false ∧ ∃ arg ∈ args, Exposed sig part arg := by
  constructor
  · intro exposed
    cases exposed with
    | root => exact .inl rfl
    | arg constructor member inner => exact .inr ⟨constructor, _, member, inner⟩
  · rintro (rfl | ⟨constructor, arg, member, inner⟩)
    · exact .root
    · exact .arg constructor member inner

theorem everywhere (exposed : Exposed sig part term) (whole : term.Everywhere holds) :
    part.Everywhere holds := by
  induction exposed with
  | root => exact whole
  | arg constructor member _ ih => exact ih ((Everywhere.app_iff.mp whole).2 _ member)

theorem canonical (exposed : Exposed sig part term) (whole : term.Canonical) : part.Canonical := by
  induction exposed with
  | root => exact whole
  | arg constructor member _ ih =>
    cases whole with
    | app _ _ parts => exact ih (parts _ member)

/-- The value of an exposed part is smaller than the value of the term around it. -/
theorem eq_or_size_lt (constructive : algebra.Constructive sig) (exposed : Exposed sig part term) :
    part = term ∨ (part.fold algebra).size < (term.fold algebra).size := by
  induction exposed with
  | root => exact .inl rfl
  | @arg label sort args arg constructor member _ ih =>
    have below : (arg.fold algebra).size < ((app label sort args).fold algebra).size := by
      rw [fold_app, constructive.app label sort _ constructor]
      exact size_lt_of_mem_children (List.mem_map_of_mem member)
    refine .inr ?_
    rcases ih with rfl | smaller
    · exact below
    · exact Nat.lt_trans smaller below

/-- What is exposed in an instance is an instance of what is exposed, or exposed in an image. -/
theorem of_apply (bare : term.Within .bare) (exposed : Exposed sig part (s.apply term)) :
    (∃ inner, Exposed sig inner term ∧ inner.var? = none ∧ part = s.apply inner) ∨
      ∃ v, Exposed sig (var v) term ∧ Exposed sig part (s.image v) := by
  induction term using induct with
  | var v =>
    rw [Subst.apply_var_eq] at exposed
    exact .inr ⟨v, .root, exposed⟩
  | token sort value =>
    rw [Subst.apply_token_eq, token_iff] at exposed
    exact .inl ⟨token sort value, .root, rfl, exposed.trans (Subst.apply_token_eq s sort value).symm⟩
  | app label sort args ih =>
    rw [Subst.apply_app_eq, app_iff] at exposed
    rcases exposed with rfl | ⟨constructor, image, member, inner⟩
    · exact .inl ⟨app label sort args, .root, rfl, (Subst.apply_app_eq s label sort args).symm⟩
    · obtain ⟨arg, inside, rfl⟩ := List.mem_map.mp member
      rcases ih arg inside ((Everywhere.app_iff.mp bare).2 arg inside) inner with
        ⟨part, exposed, shape⟩ | ⟨v, exposed, beyond⟩
      · exact .inl ⟨part, .arg constructor inside exposed, shape⟩
      · exact .inr ⟨v, .arg constructor inside exposed, beyond⟩
  | collection kind entries frame ihEntries ihFrame => exact absurd bare.here id

end Exposed

/-- A variable is exposed, or it occurs in an exposed function application. -/
theorem exposed_or_below (bare : term.Within .bare) (occurs : v ∈ term.vars) :
    Exposed sig (var v) term ∨
      ∃ call, Exposed sig call term ∧ sig.isCall call = true ∧ v ∈ call.vars := by
  induction term using induct with
  | var w =>
    obtain rfl := List.mem_singleton.mp occurs
    exact .inl .root
  | token sort value => cases occurs
  | app label sort args ih =>
    cases function : sig.isFunction label with
    | true => exact .inr ⟨app label sort args, .root, function, occurs⟩
    | false =>
      obtain ⟨arg, member, inside⟩ := mem_vars_app.mp occurs
      rcases ih arg member ((Everywhere.app_iff.mp bare).2 arg member) inside with
        exposed | ⟨call, exposed, below⟩
      · exact .inl (.arg function member exposed)
      · exact .inr ⟨call, .arg function member exposed, below⟩
  | collection kind entries frame ihEntries ihFrame => exact absurd bare.here id

/-- Only an instance of a variable can be a variable. -/
theorem var?_apply (inner : term.var? = none) (bare : term.Within .bare) :
    (s.apply term).var? = none := by
  cases term with
  | var v => cases inner
  | token sort value =>
    rw [Subst.apply_token_eq]
    rfl
  | app label sort args =>
    rw [Subst.apply_app_eq]
    rfl
  | collection kind entries frame => exact absurd bare.here id

/-- An instance of a function application is one. -/
theorem isCall_apply (inner : term.var? = none) (bare : term.Within .bare) :
    sig.isCall (s.apply term) = sig.isCall term := by
  cases term with
  | var v => cases inner
  | token sort value => rw [Subst.apply_token_eq]
  | app label sort args =>
    rw [Subst.apply_app_eq]
    rfl
  | collection kind entries frame => exact absurd bare.here id

end Term

namespace Definition

variable {d : Definition} {limit : Nat} {s other : Subst} {term value : Term}

/-- Evaluation of instances, as a fold of the term. -/
def reading (d : Definition) (limit : Nat) (s : Subst) : Term.Algebra Term :=
  (d.evaluation limit limit).after s

/-- Evaluation of instances does not fail at this node. -/
def Reads (d : Definition) (limit : Nat) (s : Subst) : Term → Prop :=
  d.Runs limit limit (fun v => (s.image v).fold (d.evaluation limit limit))
    fun v => (s.image v).Everywhere (d.Succeeds limit limit)

theorem evaluate_apply_eq_ok_iff : d.evaluate limit (s.apply term) = .ok value ↔
    term.Everywhere (d.Reads limit s) ∧ term.fold (d.reading limit s) = value := by
  have normalizing := d.normalizing_evaluation limit limit
  rw [evaluate, evaluateWithin_eq_ok_iff, normalizing.fold_apply]
  exact and_congr_left' (Evaluation.runs_apply_iff normalizing s)

theorem constructive_reading (hooks : d.signature.HooksFunctions) (limit : Nat) (s : Subst) :
    (d.reading limit s).Constructive d.signature where
  normalizing := (d.normalizing_evaluation limit limit).after s
  token := rfl
  app label sort args constructor := by
    have unhooked : d.signature.callHook label args = none := by
      simp [Signature.callHook, hooks label constructor]
    refine Evaluation.algebra_app ?_
    simp [Evaluation.node, unhooked, constructor]

/-- An instance can be evaluated if the term can be and the images can be, where they have the values of
their variables. -/
theorem reads_apply (absorbs : (d.reading limit s).Absorbs other) (reads : term.Everywhere (d.Reads limit s))
    (images : ∀ v ∈ term.vars, (other.image v).Everywhere (d.Reads limit s)) :
    (other.apply term).Everywhere (d.Reads limit s) := by
  refine (Evaluation.runs_apply_iff ((d.normalizing_evaluation limit limit).after s) other).mpr ?_
  exact (Evaluation.Runs.transfer (fun _ _ _ => id) (fun v occurs _ => ⟨images v occurs, absorbs v⟩) reads).1

end Definition

/-- Variables are replaced by ground values of their sorts. -/
structure Subst.Grounding (sig : Signature) (s : Subst) : Prop where
  sorted : s.Sorted
  canonical : s.Canonical
  value : ∀ v term, s.get? v = some term → sig.isValue term = true

namespace Definition

variable {d : Definition} {limit : Nat} {s : Subst} {term : Term}

/-- Without function applications there is nothing to evaluate. -/
theorem evaluate_of_callFree (hooks : d.signature.HooksFunctions) (limit : Nat)
    (canonical : term.Canonical) (callFree : term.Within d.signature.callFree) :
    d.evaluate limit term = .ok term := by
  refine evaluateWithin_of_final canonical (callFree.mono fun node allowed => ?_)
  cases node with
  | app label sort args =>
    have constructor : d.signature.isFunction label = false := allowed
    have unhooked : d.signature.callHook label args = none := by
      simp [Signature.callHook, hooks label constructor]
    simp [Final, Evaluation.node, unhooked, constructor]
  | _ => trivial

/-- What a variable is replaced by is its own value. -/
theorem evaluate_image (hooks : d.signature.HooksFunctions) (limit : Nat)
    (grounding : s.Grounding d.signature) (v : Variable) :
    d.evaluate limit (s.apply (.var v)) = .ok (s.image v) := by
  rw [Subst.apply_var_eq]
  refine evaluate_of_callFree hooks limit (grounding.canonical.image v) ?_
  cases bound : s.get? v with
  | none =>
    rw [Subst.image_of_get?_none bound]
    exact Term.Everywhere.var_iff.mpr trivial
  | some term =>
    rw [Subst.image_of_get? bound]
    have constructors := List.all_eq_true.mp (Bool.and_eq_true_iff.mp (grounding.value v term bound)).2
    exact Signature.within_of_labels fun label occurs => by simpa using constructors label occurs

end Definition

end Reach
