import Reach.Proof
import Reach.Proofs.Entailment
import Reach.Proofs.Exposure
import Reach.Proofs.NormalForms

/-!
Claims that lead to where they start. A match of the start with the target is found, and with the
variables held fixed it moves none of them, so that the branch is closed if the store finds that the
precondition follows from itself. It asks whether the precondition can hold together with its own
negation. The bounds refute that for a single comparison with a constant; of a negated conjunction, or of
a comparison of two variables, they read nothing.
-/

namespace Reach

namespace Bounds

variable {comparison result : Comparison} {a b : Term} {v : Variable} {bound : Int} {atom denial : Atom}

private theorem normalForm?_negate (found : normalForm? comparison a b = some (result, v, bound)) :
    normalForm? comparison.negate a b = some (result.negate, v, bound) := by
  have flip : comparison.negate.flip = comparison.flip.negate := by cases comparison <;> rfl
  unfold normalForm? at found ⊢
  split at found
  · cases found
    rfl
  · split at found
    · cases found
      rw [flip]
    · cases found

/-- A bound and its denial leave nothing. -/
theorem refute_denial (found : boundOf? atom = some (comparison, v, bound))
    (denied : boundOf? denial = some (comparison.negate, v, bound)) :
    (ofAtoms [atom, denial]).refute = true := by
  by_contra consistent
  obtain ⟨value, leaves⟩ := refute_eq_false_iff.mp (Bool.eq_false_iff.mpr consistent) v
  have holds := leaves atom (by simp) _ _ found
  have fails := leaves denial (by simp) _ _ denied
  rw [Comparison.holds_negate, holds] at fails
  cases fails

/-- A comparison with a constant is refuted together with its negation. -/
theorem refute_negate {label : String} {sort : TermSort} (listed : label ∈ Label.comparisons)
    (sides : Sides a b) :
    (ofAtoms [.holds (.app label sort [a, b]), .holds (Term.app label sort [a, b]).negate]).refute =
      true := by
  obtain ⟨comparison, known, differ⟩ := comparison?_of_listed listed
  obtain ⟨result, v, bound, found⟩ := exists_normalForm? sides comparison
  refine @refute_denial result v bound _ _ ?_ ?_
  · simp [boundOf?, comparisonOf?, differ, known, found]
  · simp [boundOf?, comparisonOf?, Term.negate, known, normalForm?_negate found]

end Bounds

namespace Constraint

variable {sig : Signature} {c : Constraint} {conditions : List Term} {condition : Term}

/-- A condition that simplification leaves as it is. -/
structure Settled (sig : Signature) (condition : Term) : Prop where
  evaluated : sig.evalBuiltins condition = condition
  single : conjuncts condition = [condition]
  undecided : condition.isTrue = false ∧ condition.isFalse = false

theorem Settled.simple (settled : Settled sig condition) : (Atom.holds condition).Simple sig := by
  obtain ⟨unknown, possible⟩ := settled.undecided
  exact .holds (Signature.reduced_iff.mpr settled.evaluated)
    (Term.bool?_of_undecided (Bool.eq_false_iff.mp unknown) (Bool.eq_false_iff.mp possible)) settled.single

/-- Distinct settled conditions are left as they are. -/
theorem simplify_settled (settled : ∀ condition ∈ conditions, Settled sig condition)
    (distinct : conditions.Nodup) :
    simplify sig ⟨conditions.map Atom.holds, false⟩ = ⟨conditions.map Atom.holds, false⟩ := by
  refine simplify_of_normal ⟨⟨nofun, distinct.map fun _ _ same => Atom.holds.inj same, ?_⟩, ?_⟩
  · exact List.forall_mem_map.mpr fun condition member => (settled condition member).simple
  · intro v value defined
    obtain ⟨_, _, impossible⟩ := List.mem_map.mp defined
    cases impossible

/-- Nothing is left of the constraint, or one comparison of a linear term with a constant. -/
inductive Evident (sig : Signature) : Constraint → Prop
  | nothing : Evident sig top
  | comparison {label : String} {sort : TermSort} {a b : Term} (builtins : sig.HasBuiltins)
      (listed : label ∈ Label.comparisons) (sides : Bounds.Sides a b) :
      Evident sig ⟨[.holds (.app label sort [a, b])], false⟩

theorem callHook_of_open (builtins : sig.HasBuiltins) {label : String} {a b : Term}
    (listed : label ∈ Label.comparisons) (unknown : a.int? = none ∨ b.int? = none)
    (unbound : a.ground = false ∨ b.ground = false) : sig.callHook label [a, b] = none := by
  obtain ⟨comparison, known, _⟩ := Bounds.comparison?_of_listed listed
  obtain ⟨name, hook, hooked, named, cases⟩ := Bounds.hook_of_comparison known
  rw [builtins.callHook_eq hook hooked named]
  rcases cases with rfl | ⟨_, rfl⟩ | ⟨_, rfl⟩
  · rcases unknown with unknown | unknown <;> simp [Hook.apply, Hook.onBoth, unknown]
  · rcases unbound with unbound | unbound <;> simp [Hook.apply, Hook.onGround, unbound]
  · rcases unbound with unbound | unbound <;> simp [Hook.apply, Hook.onGround, unbound]

theorem evalBuiltins_of_int? {a : Term} {value : Int} (known : a.int? = some value) :
    sig.evalBuiltins a = a := by
  cases a with
  | token sort text => rfl
  | _ => cases known

theorem linear_settled (builtins : sig.HasBuiltins) {a : Term} {v : Variable} {offset : Int}
    (linear : Bounds.Linear a v offset) : sig.evalBuiltins a = a ∧ a.int? = none ∧ a.ground = false := by
  have stuck (b c : Term) (unknown : b.int? = none ∨ c.int? = none) :
      sig.callHook Label.intAdd [b, c] = none ∧ sig.callHook Label.intSub [b, c] = none := by
    rw [builtins.callHook_eq .intAdd rfl rfl, builtins.callHook_eq .intSub rfl rfl]
    rcases unknown with unknown | unknown <;> simp [Hook.apply, Hook.onBoth, unknown]
  cases linear with
  | var integer => exact ⟨rfl, rfl, rfl⟩
  | addRight integer known =>
    refine ⟨?_, rfl, by simp⟩
    simp [Signature.evalBuiltins_app, evalBuiltins_of_int? known, (stuck (.var v) _ (.inl rfl)).1]
  | addLeft integer known =>
    refine ⟨?_, rfl, by simp⟩
    simp [Signature.evalBuiltins_app, evalBuiltins_of_int? known, (stuck _ (.var v) (.inr rfl)).1]
  | sub integer known =>
    refine ⟨?_, rfl, by simp⟩
    simp [Signature.evalBuiltins_app, evalBuiltins_of_int? known, (stuck (.var v) _ (.inl rfl)).2]

section Denial

variable {label : String} {sort : TermSort} {a b : Term} (builtins : sig.HasBuiltins)
  (listed : label ∈ Label.comparisons) (sides : Bounds.Sides a b)
include builtins listed sides

theorem settled_comparison : Settled sig (.app label sort [a, b]) := by
  have differ : label ≠ Label.boolAnd := by
    revert label
    decide
  refine ⟨?_, by simp [conjuncts, differ], rfl, rfl⟩
  rcases sides with ⟨⟨v, offset, linear⟩, constant, known⟩ | ⟨⟨constant, known⟩, v, offset, linear⟩
  · obtain ⟨same, unknown, unbound⟩ := linear_settled builtins linear
    simp [Signature.evalBuiltins_app, same, evalBuiltins_of_int? known,
      callHook_of_open builtins listed (.inl unknown) (.inl unbound)]
  · obtain ⟨same, unknown, unbound⟩ := linear_settled builtins linear
    simp [Signature.evalBuiltins_app, same, evalBuiltins_of_int? known,
      callHook_of_open builtins listed (.inr unknown) (.inr unbound)]

theorem settled_negation : Settled sig (Term.app label sort [a, b]).negate := by
  have differ : Label.boolNot ≠ Label.boolAnd := by decide
  refine ⟨?_, by simp [Term.negate, conjuncts, differ], rfl, rfl⟩
  have inner : sig.evalBuiltins (.app label sort [a, b]) = .app label sort [a, b] :=
    (settled_comparison builtins listed sides).evaluated
  simp [Term.negate, Signature.evalBuiltins_app sig Label.boolNot, inner, builtins.callHook_not, Term.bool?]

/-- Simplification has nothing to do about a comparison and its negation. -/
theorem simplify_denial : simplify sig
      ⟨[.holds (.app label sort [a, b]), .holds (Term.app label sort [a, b]).negate], false⟩ =
    ⟨[.holds (.app label sort [a, b]), .holds (Term.app label sort [a, b]).negate], false⟩ := by
  have differ : Term.app label sort [a, b] ≠ (Term.app label sort [a, b]).negate := by
    intro same
    cases same
  refine @simplify_settled _ [.app label sort [a, b], (Term.app label sort [a, b]).negate] ?_
    (by simpa using differ)
  simpa using ⟨settled_comparison builtins listed sides, settled_negation builtins listed sides⟩

end Denial

end Constraint

namespace Store

variable {sig : Signature} {store : Store} {conclusion : Constraint}

/-- The store finds that a condition follows from what is left of it by simplification, if that is
nothing or a single comparison. -/
theorem Standard.implies_of_evident (standard : store.Standard sig)
    (evident : (conclusion.simplify sig).Evident sig) :
    (Store.implies sig (conclusion.simplify sig) conclusion store).1 = .ok true := by
  generalize simplified : conclusion.simplify sig = c at evident
  rw [implies_eq, simplified]
  cases evident with
  | nothing => rfl
  | comparison builtins listed sides =>
    rename_i label sort a b
    have undecided : denied sig ⟨[.holds (.app label sort [a, b])], false⟩ conclusion =
        ⟨[.holds (.app label sort [a, b]), .holds (Term.app label sort [a, b]).negate], false⟩ := by
      have added : Constraint.conjoin ⟨[.holds (.app label sort [a, b])], false⟩
          (Term.app label sort [a, b]).negate =
          ⟨[.holds (.app label sort [a, b]), .holds (Term.app label sort [a, b]).negate], false⟩ := by
        have settled : Constraint.Settled sig (Term.app label sort [a, b]).negate :=
          Constraint.settled_negation builtins listed sides
        have differ : (Term.app label sort [a, b]).negate ≠ Term.app label sort [a, b] := by
          intro same
          cases same
        simp [Constraint.conjoin, settled.single, Constraint.assume, settled.undecided,
          Constraint.push, differ]
      rw [denied, simplified]
      change Constraint.simplify sig (Constraint.conjoin _ (Term.app label sort [a, b]).negate) = _
      rw [added]
      exact Constraint.simplify_denial builtins listed sides
    obtain ⟨answer, after⟩ :=
      standard.query (denied sig ⟨[.holds (.app label sort [a, b])], false⟩ conclusion)
    have verdict : (denied sig ⟨[.holds (.app label sort [a, b])], false⟩ conclusion).decideLocally sig =
        .unsat := by
      rw [Constraint.decideLocally_eq_unsat_iff, undecided,
        Constraint.simplify_denial builtins listed sides]
      exact .inr (Bounds.refute_negate listed sides)
    rw [answer, after.config, verdict]
    split
    · rfl
    · split <;> rfl

end Store

namespace Subst

/-- Variables go to variables. -/
def Relabels (s : Subst) : Prop :=
  ∀ v, ∃ w, s.image v = .var w

variable {s : Subst} {term : Term}

theorem Relabels.canonical (relabels : s.Relabels) : s.Canonical := by
  intro v image bound
  obtain ⟨w, same⟩ := relabels v
  rw [image_of_get? bound] at same
  exact same ▸ .var w

/-- A frame stays what it is, so that nothing is taken apart. -/
theorem Relabels.kind?_apply (relabels : s.Relabels) (canonical : term.Canonical) :
    (s.apply term).kind? = term.kind? := by
  cases canonical with
  | var v =>
    obtain ⟨w, same⟩ := relabels v
    rw [apply_var_eq, same]
    rfl
  | app label sort parts =>
    rw [apply_app_eq]
    rfl
  | token sort value => rw [apply_token_eq]
  | collection parts rest arranged => exact Subst.kind?_apply (.collection parts rest arranged)

theorem Relabels.ground_apply (relabels : s.Relabels) : (s.apply term).ground = term.ground := by
  rw [Bool.eq_iff_iff, ground_apply_iff, Term.ground_iff_vars_eq_nil term, List.eq_nil_iff_forall_not_mem]
  refine forall_congr' fun v => ⟨fun each occurs => ?_, fun absent occurs => absurd occurs absent⟩
  obtain ⟨w, same⟩ := relabels v
  have ground := each occurs
  rw [same] at ground
  cases ground

/-- Ground keys are not touched, so that each of them still belongs to one entry. -/
theorem Relabels.keyed_apply (relabels : s.Relabels) (canonical : term.Canonical)
    (keyed : term.Everywhere Term.keyed) : (s.apply term).Everywhere Term.keyed := by
  induction canonical with
  | var v =>
    obtain ⟨w, same⟩ := relabels v
    rw [apply_var_eq, same]
    exact Term.Everywhere.var_iff.mpr trivial
  | app label sort parts ih =>
    obtain ⟨_, inner⟩ := Term.Everywhere.app_iff.mp keyed
    rw [apply_app_eq]
    refine Term.Everywhere.app_iff.mpr ⟨trivial, fun image member => ?_⟩
    obtain ⟨arg, inside, rfl⟩ := List.mem_map.mp member
    exact ih arg inside (inner arg inside)
  | token sort value => rwa [apply_token_eq]
  | collection parts rest arranged ihEntries ihFrame =>
    rename_i kind entries frame
    have whole := Term.Canonical.collection parts rest arranged
    obtain ⟨here, inner, last⟩ := Term.Everywhere.collection_iff.mp keyed
    have sealed : ∀ image ∈ frame.map s.apply, image.kind? ≠ some kind := by
      intro image member
      obtain ⟨source, present, rfl⟩ := Option.map_eq_some_iff.mp member
      rw [relabels.kind?_apply (rest source present)]
      exact whole.kind?_of_frame source present
    have fixed : ∀ entry ∈ entries, entry.key.ground = true → s.apply entry.key = entry.key :=
      fun entry member ground =>
        (Matching.solves_ground (parts entry member _ entry.key_mem_parts) ground).1
    rw [apply_collection_eq s whole]
    refine .normalized (fun image member part inside => ?_) (fun image member => ?_)
      fun kept among => ?_
    · obtain ⟨source, present, piece, within, rfl⟩ := Entry.mem_parts_map member inside
      exact ihEntries source present piece within (inner source present piece within)
    · obtain ⟨source, present, rfl⟩ := Option.map_eq_some_iff.mp member
      exact ihFrame source present (last source present)
    · rw [Term.splice_of_kind sealed] at among
      intro a memberA b memberB same ground
      obtain ⟨first, presentA, rfl⟩ := List.mem_map.mp (among a memberA)
      obtain ⟨second, presentB, rfl⟩ := List.mem_map.mp (among b memberB)
      rw [Entry.key_map, Entry.key_map] at same
      rw [Entry.key_map] at ground
      rw [relabels.ground_apply] at ground
      have other : second.key.ground = true := by
        rw [← relabels.ground_apply, ← same, relabels.ground_apply]
        exact ground
      rw [fixed first presentA ground, fixed second presentB other] at same
      rw [here first presentA second presentB same ground]

end Subst

namespace Rule

/-- Renaming apart takes variables to variables. -/
theorem relabels_renameOnto {vars : List Variable} {s : Subst} (relabels : s.Relabels) (fresh : Fresh) :
    (renameOnto vars (s, fresh)).1.Relabels := by
  induction vars generalizing s fresh with
  | nil => exact relabels
  | cons v rest ih =>
    rw [renameOnto_cons]
    refine ih (fun w => ?_) _
    by_cases same : w = v
    · exact ⟨(fresh.variableLike v).1, by simp [Subst.image, Assoc.get?_insert, same]⟩
    · obtain ⟨image, went⟩ := relabels w
      refine ⟨image, ?_⟩
      rw [Subst.image] at went ⊢
      rw [Assoc.get?_insert, if_neg same, went]

private theorem relabels_freshRenaming (vars : List Variable) (fresh : Fresh) :
    (freshRenaming vars fresh).1.Relabels :=
  relabels_renameOnto (fun v => ⟨v, rfl⟩) fresh

end Rule

namespace Matching

variable {sig : Signature} {seed s : Subst} {term : Term}

/-- A term matches itself where its variables stay. -/
theorem solves_still (canonical : term.Canonical) (still : ∀ v, s.image v = .var v) :
    Solves s (term, term) := by
  have fixed {part : Term} (canonical : part.Canonical) : s.apply part = part :=
    Subst.apply_eq_self canonical fun v _ => still v
  refine ⟨fixed canonical, ?_⟩
  induction canonical with
  | var v => exact Term.Everywhere.var_iff.mpr trivial
  | token sort value => exact Term.Everywhere.token_iff.mpr trivial
  | app label sort parts ih => exact Term.Everywhere.app_iff.mpr ⟨trivial, ih⟩
  | collection parts rest arranged ihEntries ihFrame =>
    rename_i kind entries frame
    have whole := Term.Canonical.collection parts rest arranged
    have same : entries.map (Entry.map s.apply) = entries :=
      (List.map_congr_left fun entry member => Entry.map_eq_self fun part inside =>
        fixed (parts entry member part inside)).trans (List.map_id entries)
    refine Term.Everywhere.collection_iff.mpr ⟨fun merging => ⟨?_, ?_⟩, ihEntries, ihFrame⟩
    · rw [same]
      exact whole.nodup merging
    · intro last member entry _
      rw [fixed (rest last member), Term.contents_of_kind (whole.kind?_of_frame last member)]
      exact List.not_mem_nil

/-- With all variables held fixed there is a match of a term against itself, and it moves none of them. -/
theorem enumerateFrom_self (admissible : Admissible sig (term, term))
    (still : ∀ v, seed.image v = .var v) (covers : ∀ v ∈ term.vars, (seed.get? v).isSome = true) :
    ∃ s more, enumerateFrom seed term term = .cons s more ∧ ∀ v, s.image v = .var v := by
  have canonical : seed.Canonical := Subst.Relabels.canonical fun v => ⟨v, still v⟩
  have start : Problem.Invariant sig { subst := seed, goals := [(term, term)], deferred := [] } :=
    ⟨canonical, by simpa [Problem.pending] using admissible⟩
  have lists := Problem.solve_lists _ start le_rfl
  have matched : IsCanonicalMatch seed term term seed :=
    { extension :=
        { keeps := fun _ _ bound => bound
          domain := fun v => ⟨.inl, fun known => known.elim id (covers v)⟩
          sorted := fun v image free bound => by rw [free] at bound; cases bound }
      image := (solves_still admissible.pattern still).1
      apart := (solves_still admissible.pattern still).2
      canonical }
  obtain ⟨answer, member, _⟩ := lists.complete seed (isCanonicalMatch_iff.mp matched)
  have each : ∀ answer ∈ (enumerateFrom seed term term).toList, ∀ v, answer.image v = .var v := by
    intro answer member v
    have extension := (isCanonicalMatch_iff.mpr (lists.sound answer member)).extension
    cases bound : seed.get? v with
    | some image =>
      rw [Subst.image_of_get? (extension.keeps v image bound), ← still v, Subst.image_of_get? bound]
    | none =>
      refine Subst.image_of_get?_none (Option.not_isSome_iff_eq_none.mp fun binds => ?_)
      rcases (extension.domain v).mp binds with before | occurs
      · simp [bound] at before
      · simpa [bound] using covers v occurs
  change answer ∈ (enumerateFrom seed term term).toList at member
  cases found : enumerateFrom seed term term with
  | nil =>
    rw [found] at member
    cases member
  | cons s more => exact ⟨s, more, rfl, each s (by rw [found]; exact List.mem_cons_self)⟩

end Matching

/-- A claim that leads to where it starts and promises what it asks for; its start is well-sorted and
has no function applications. -/
structure Rule.Reflexive (sig : Signature) (claim : Rule) : Prop where
  target : claim.rhs = claim.lhs
  promise : claim.ensures = claim.requires
  canonical : claim.lhs.Canonical
  condition : claim.requires.Canonical
  checked : sig.check claim.lhs = .ok ()
  callFree : claim.lhs.Within sig.callFree

section Renamed

variable {sig : Signature} {claim : Rule} {fresh : Fresh}

/-- A renamed claim matches its start with its target. -/
theorem Rule.Reflexive.renamed (reflexive : claim.Reflexive sig) (fresh : Fresh) :
    Matching.Admissible sig ((claim.renameApart fresh).1.lhs, (claim.renameApart fresh).1.lhs) ∧
      (claim.renameApart fresh).1.lhs.Within sig.callFree ∧
      (claim.renameApart fresh).1.requires.Canonical := by
  have relabels := relabels_freshRenaming claim.allVars fresh
  have var {fragment : Term.Fragment} (allowed : ∀ v, fragment.var v) (v : Variable) :
      ((freshRenaming claim.allVars fresh).1.image v).Within fragment := by
    obtain ⟨w, same⟩ := relabels v
    rw [same]
    exact Term.Everywhere.var_iff.mpr (allowed w)
  have canonical := relabels.canonical.apply reflexive.canonical
  have declared := Term.Within.apply (Signature.within_declared reflexive.checked)
    fun v _ => var (fun _ => trivial) v
  have copied : (claim.renameApart fresh).1 = claim.substitute (freshRenaming claim.allVars fresh).1 := rfl
  rw [copied, Rule.substitute]
  exact ⟨⟨⟨canonical, declared, declared⟩, canonical, relabels.keyed_apply reflexive.canonical
      (Signature.everywhere_keyed reflexive.canonical reflexive.checked)⟩,
    reflexive.callFree.apply fun v _ => var (fun _ => trivial) v,
    relabels.canonical.apply reflexive.condition⟩

end Renamed

namespace Engine

variable {context : Context} {world after : World} {claim : Rule} {state : State}

theorem gives_implies {assumption conclusion : Constraint} {value : Bool} :
    Gives (implies assumption conclusion) context world value after ↔
      (Store.implies context.definition.signature assumption conclusion world.store).1 = .ok value ∧
        after = { world with
          store := (Store.implies context.definition.signature assumption conclusion world.store).2 } :=
  gives_ask

/-- The first match settles the matter if the postcondition follows under it. -/
theorem of_gives_matchesTarget {s : Subst} {more : Unit → Enumeration Subst} {ensures : Term}
    {value : Bool} (evaluated : context.definition.evaluate context.config.maxFunctionDepth
      (s.apply claim.ensures) = .ok ensures)
    (implied : (Store.implies context.definition.signature state.constraint (.ofTerm ensures)
      world.store).1 = .ok true)
    (gives : Gives (matchesTarget claim state (.cons s more)) context world value after) : value = true := by
  simp only [matchesTarget, gives_bind, gives_evaluate, gives_implies] at gives
  obtain ⟨_, _, ⟨result, rfl⟩, _, _, ⟨answer, rfl⟩, gives⟩ := gives
  obtain rfl := Except.ok.inj (evaluated.symm.trans result)
  obtain rfl := Except.ok.inj (implied.symm.trans answer)
  simp only [↓reduceIte, gives_pure] at gives
  exact gives.1

/-- What matching shows is not asked again. -/
theorem of_gives_reachesTarget {o : Obligation} {narrowing : Subst} {value : Bool}
    (closes : ∀ value middle, Gives (matchesTarget o.claim state
      (Matching.enumerateFrom (seed o.fixed narrowing) o.claim.rhs state.term)) context world value
        middle → value = true)
    (gives : Gives (reachesTarget o state narrowing) context world value after) : value = true := by
  simp only [reachesTarget, monadLift_self, gives_bind] at gives
  obtain ⟨answer, middle, matched, gives⟩ := gives
  obtain rfl := closes answer middle matched
  simp only [↓reduceIte, gives_pure] at gives
  exact gives.1

/-- A branch that has reached its target leaves nothing open, whatever the limits are. -/
theorem of_gives_followBranches {o : Obligation} {claims : List Rule} {config : ProofConfig}
    {budget : Nat} {branch : Branch} {residuals : List State}
    (closes : ∀ value middle, Gives (reachesTarget o branch.state branch.narrowing) context world value
      middle → value = true)
    (gives : Gives (followBranches o claims config budget [branch] []) context world residuals after) :
    residuals = [] := by
  cases budget with
  | zero => exact absurd gives gives_throw
  | succ budget =>
    simp only [followBranches, advance, gives_bind] at gives
    obtain ⟨_, _, ⟨answer, middle, reached, gives⟩, rest⟩ := gives
    obtain rfl := closes answer middle reached
    simp only [↓reduceIte, gives_pure] at gives
    obtain ⟨rfl, rfl⟩ := gives
    simp only [List.append_nil, followBranches, gives_pure] at rest
    exact rest.1

/-- The state in which the proof of a claim starts, once its start and its precondition are evaluated. -/
def initial (sig : Signature) (term requires : Term) : State :=
  { term, constraint := (Constraint.ofTerm requires).simplify sig }

/-- Either the precondition is infeasible, or the branch is followed that starts where the claim does. -/
theorem of_gives_proveClaim {claims : List Rule} {config : ProofConfig} {residuals : List State}
    (gives : Gives (proveClaim claims config claim) context world residuals after) :
    ∃ requires term answer middle, context.definition.evaluate context.config.maxFunctionDepth
        (claim.renameApart world.fresh).1.requires = .ok requires ∧
      context.definition.evaluate context.config.maxFunctionDepth (claim.renameApart world.fresh).1.lhs =
        .ok term ∧
      Gives (feasible (initial context.definition.signature term requires).constraint) context
        { world with fresh := (claim.renameApart world.fresh).2 } answer middle ∧
      if answer then
        Gives (followBranches { claim := (claim.renameApart world.fresh).1
                                fixed := (initial context.definition.signature term requires).freeVars }
          claims config context.config.budget
          [{ state := initial context.definition.signature term requires, narrowing := .empty
             semanticSteps := 0, depth := 0 }] []) context middle residuals after
      else residuals = [] ∧ after = middle := by
  simp only [proveClaim, monadLift_self, copy_eq, gives_bind, gives_signature, gives_renameApart,
    gives_evaluate] at gives
  obtain ⟨_, _, ⟨rfl, rfl⟩, _, _, ⟨rfl, rfl⟩, requires, _, ⟨evaluated, rfl⟩, term, _, ⟨start, rfl⟩,
    answer, middle, asked, gives⟩ := gives
  refine ⟨requires, term, answer, middle, evaluated, start, asked, ?_⟩
  cases answer with
  | false =>
    simp only [Bool.not_false, ↓reduceIte, gives_pure] at gives
    exact gives
  | true =>
    simp only [Bool.not_true, Bool.false_eq_true, ↓reduceIte, gives_bind, gives_budget] at gives
    obtain ⟨_, _, ⟨rfl, rfl⟩, gives⟩ := gives
    exact gives

/-- What is left of the evaluated precondition of a renamed claim is evident, or the store finds it
infeasible. -/
def EvidentlyRequires (context : Context) (fresh : Fresh) (claim : Rule) : Prop :=
  ∀ requires, context.definition.evaluate context.config.maxFunctionDepth
      (claim.renameApart fresh).1.requires = .ok requires →
    ((Constraint.ofTerm requires).simplify context.definition.signature).Evident
        context.definition.signature ∨
      (Store.feasible context.definition.signature
        ((Constraint.ofTerm requires).simplify context.definition.signature) .standard).1 = .ok false

section Reflexive

variable {copy : Rule} {requires : Term}

/-- A branch that starts in its target has reached it, if what is left of the precondition is evident. -/
theorem reachesTarget_initial (standard : world.store.Standard context.definition.signature)
    (target : copy.rhs = copy.lhs) (promise : copy.ensures = copy.requires)
    (condition : copy.requires.Canonical)
    (admissible : Matching.Admissible context.definition.signature (copy.lhs, copy.lhs))
    (evaluated : context.definition.evaluate context.config.maxFunctionDepth copy.requires = .ok requires)
    (evident : ((Constraint.ofTerm requires).simplify context.definition.signature).Evident
      context.definition.signature) {value : Bool}
    (gives : Gives (reachesTarget
      { claim := copy, fixed := (initial context.definition.signature copy.lhs requires).freeVars }
      (initial context.definition.signature copy.lhs requires) .empty) context world value after) :
    value = true := by
  have lookup := Subst.get?_ofValues .var (initial context.definition.signature copy.lhs requires).freeVars
  have covers : ∀ v ∈ copy.lhs.vars, ((Subst.ofValues .var
      (initial context.definition.signature copy.lhs requires).freeVars).get? v).isSome = true := by
    intro v occurs
    rw [lookup, if_pos (State.mem_freeVars.mpr (.inl occurs))]
    rfl
  obtain ⟨s, more, found, still⟩ := Matching.enumerateFrom_self admissible
    (fun v => by rw [Subst.image, lookup]; split <;> rfl) covers
  have fixed : s.apply copy.ensures = copy.requires := by
    rw [promise]
    exact Subst.apply_eq_self condition fun v _ => still v
  rw [← fixed] at evaluated
  have implied : (Store.implies context.definition.signature
      (initial context.definition.signature copy.lhs requires).constraint (.ofTerm requires)
        world.store).1 = .ok true := standard.implies_of_evident evident
  refine of_gives_reachesTarget (fun value last matched => ?_) gives
  have first : Gives (matchesTarget copy (initial context.definition.signature copy.lhs requires)
      (.cons s more)) context world value last := by
    rw [← found]
    dsimp only at matched
    rw [target] at matched
    exact matched
  exact of_gives_matchesTarget evaluated implied first

variable (hooks : context.definition.signature.HooksFunctions)
  (standard : world.store.Standard context.definition.signature)
  (reflexive : claim.Reflexive context.definition.signature)
include hooks standard reflexive

private theorem proveClaim_eq_nil {claims : List Rule} {config : ProofConfig} {residuals : List State}
    (evident : EvidentlyRequires context world.fresh claim)
    (gives : Gives (proveClaim claims config claim) context world residuals after) : residuals = [] := by
  obtain ⟨admissible, callFree, condition⟩ := reflexive.renamed world.fresh
  have target : (claim.renameApart world.fresh).1.rhs = (claim.renameApart world.fresh).1.lhs :=
    congrArg (Subst.apply _) reflexive.target
  have promise : (claim.renameApart world.fresh).1.ensures = (claim.renameApart world.fresh).1.requires :=
    congrArg (Subst.apply _) reflexive.promise
  obtain ⟨requires, term, answer, middle, evaluated, start, asked, rest⟩ := of_gives_proveClaim gives
  rw [Definition.evaluate_of_callFree hooks _ admissible.pattern callFree] at start
  cases start
  cases answer with
  | false => exact rest.1
  | true =>
    have onward := (leads_of_gives_feasible asked).1.standard standard
    have feasible := (gives_feasible.mp asked).1
    rw [standard.feasible_eq] at feasible
    -- The branch is followed, so that the precondition was not found infeasible.
    have left := (evident requires evaluated).resolve_right fun infeasible => by
      cases feasible.symm.trans infeasible
    refine of_gives_followBranches (fun value last reached => ?_) rest
    exact reachesTarget_initial onward target promise condition admissible evaluated left reached

/-- A claim that leads to where it starts is proved at once, whatever the limits are, if nothing is left
of its precondition or a single comparison of a variable, perhaps with an offset, with a constant, or if
the store finds that the precondition cannot hold. -/
theorem isProved_of_reflexive {config : ProofConfig} {result : ProofResult}
    (evident : EvidentlyRequires context world.fresh claim)
    (gives : Gives (prove [claim] config) context world result after) : result.isProved = true := by
  simp only [prove, gives_bind] at gives
  obtain ⟨results, middle, made, gives⟩ := gives
  obtain ⟨rfl, rfl⟩ := gives_pure.mp gives
  by_cases trusted : claim.isTrusted = true
  · rw [List.filter_cons_of_neg (by simpa using trusted), List.filter_nil, List.mapM_nil, gives_pure] at made
    rw [made.1]
    rfl
  · rw [List.filter_cons_of_pos (by simpa using trusted), List.filter_nil] at made
    simp only [List.mapM_cons, List.mapM_nil, gives_bind, gives_pure] at made
    obtain ⟨residuals, _, proved, _, _, ⟨rfl, rfl⟩, rfl, rfl⟩ := made
    rw [proveClaim_eq_nil hooks standard reflexive evident proved]
    rfl

end Reflexive

end Engine

section Staying

/-- A configuration that holds a number, and no rules. -/
def resting : Context where
  definition := .empty ⟨Signature.builtin.labels.insert "cfg" (.constructor "cfg" [.int] (.named "Cfg"))⟩

/-- The configuration stays as it is, under a condition on its number. -/
def stay (condition : Term) : Rule :=
  { label := "stay"
    lhs := .app "cfg" (.named "Cfg") [.var ⟨"X", .int⟩]
    rhs := .app "cfg" (.named "Cfg") [.var ⟨"X", .int⟩]
    requires := condition
    ensures := condition }

def below (bound : Int) : Term :=
  .app Label.intLt .bool [.var ⟨"X", .int⟩, .ofInt bound]

def between (lower upper : Int) : Term :=
  .conjunction (.app Label.intLe .bool [.ofInt lower, .var ⟨"X", .int⟩]) (below upper)

theorem resting_declared :
    Signature.builtin.declareAll [.constructor "cfg" [.int] (.named "Cfg")] = .ok resting.definition.signature :=
  rfl

private theorem resting_hooks : resting.definition.signature.HooksFunctions :=
  Signature.hooksFunctions_builtin.declareAll (by decide) resting_declared

private theorem resting_builtins : resting.definition.signature.HasBuiltins :=
  Signature.constructive_builtin.toHasBuiltins.declareAll resting_declared

private theorem checked_start :
    resting.definition.signature.check (.app "cfg" (.named "Cfg") [.var ⟨"X", .int⟩]) = .ok () := by
  decide

theorem reflexive_stay {condition : Term} (canonical : condition.Canonical) :
    (stay condition).Reflexive resting.definition.signature where
  target := rfl
  promise := rfl
  canonical := .app _ _ (by simp [Term.Canonical.var])
  condition := canonical
  checked := checked_start
  callFree := Term.Everywhere.app_iff.mpr ⟨rfl, by simpa using within_var trivial⟩

theorem canonical_below (bound : Int) : (below bound).Canonical :=
  .app _ _ (by simp [Term.Canonical.var, Term.ofInt, Term.Canonical.token])

private theorem canonical_between (lower upper : Int) : (between lower upper).Canonical :=
  .app _ _ (by
    simp only [List.mem_cons, List.not_mem_nil, or_false, forall_eq_or_imp, forall_eq]
    exact ⟨.app _ _ (by simp [Term.Canonical.var, Term.ofInt, Term.Canonical.token]), canonical_below upper⟩)

end Staying

private theorem evidentlyRequires_below :
    Engine.EvidentlyRequires resting .start (stay (below 10)) := by
  intro requires evaluated
  have value : resting.definition.evaluate resting.config.maxFunctionDepth
      ((stay (below 10)).renameApart .start).1.requires =
        .ok (.app Label.intLt .bool [.var ⟨"X#0", .int⟩, .ofInt 10]) := by decide +kernel
  obtain rfl := Except.ok.inj (value.symm.trans evaluated)
  have simplified : (Constraint.ofTerm (.app Label.intLt .bool [.var ⟨"X#0", .int⟩, .ofInt 10])).simplify
      resting.definition.signature =
        ⟨[.holds (.app Label.intLt .bool [.var ⟨"X#0", .int⟩, .ofInt 10])], false⟩ := by decide +kernel
  rw [simplified]
  exact .inl (.comparison resting_builtins (by decide) (.inl ⟨⟨_, _, .var rfl⟩, 10, rfl⟩))

/-- One bound on the number follows from itself. -/
theorem isProved_of_reflexive_below : ∃ result after,
    Engine.Gives (Engine.prove [stay (below 10)] { maxDepth := some 0 }) resting {} result after ∧
      result.isProved = true := by
  obtain ⟨after, gives⟩ : ∃ after, Engine.Gives (Engine.prove [stay (below 10)] { maxDepth := some 0 })
      resting {} ⟨[]⟩ after := Engine.exists_gives (by decide +kernel)
  have standard : (World.store {}).Standard resting.definition.signature := Store.standard_standard _
  exact ⟨_, after, gives, @Engine.isProved_of_reflexive resting {} after _ resting_hooks standard
    (reflexive_stay (canonical_below 10)) _ _ evidentlyRequires_below gives⟩

/-- Two bounds on the number do not: of the negated conjunction no bound can be read off. -/
theorem isProved_of_reflexive_between :
    (stay (between 0 10)).Reflexive resting.definition.signature ∧ ∃ result after,
      Engine.Gives (Engine.prove [stay (between 0 10)] { maxDepth := some 0 }) resting {} result after ∧
        result.isProved = false := by
  let left : State :=
    { term := .app "cfg" (.named "Cfg") [.var ⟨"X#0", .int⟩]
      constraint := ⟨[.holds (.app Label.intLe .bool [.ofInt 0, .var ⟨"X#0", .int⟩]),
        .holds (.app Label.intLt .bool [.var ⟨"X#0", .int⟩, .ofInt 10])], false⟩ }
  obtain ⟨after, gives⟩ : ∃ after, Engine.Gives (Engine.prove [stay (between 0 10)] { maxDepth := some 0 })
      resting {} ⟨[left]⟩ after := Engine.exists_gives (by decide +kernel)
  exact ⟨reflexive_stay (canonical_between 0 10), _, after, gives, rfl⟩

end Reach
