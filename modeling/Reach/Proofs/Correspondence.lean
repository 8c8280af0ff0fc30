import Reach.Proofs.Simulation

/-!
Matching and unification on a ground term. A match that merges no entries of sets and maps gives each
variable of the left-hand side the value that some unifier of the renamed left-hand side gives to the
new variable. Conversely the values that a unifier gives to the new variables are a match, provided
that they merge no entries either: unification decides about a collection after the bindings made
elsewhere, so that entries of the pattern may have become equal before they are counted.
-/

namespace Reach

namespace Subst

variable {s : Subst} {term : Term}

/-- An instance is ground if the variables go to ground terms. -/
theorem ground_apply_iff :
    (s.apply term).ground = true ↔ ∀ v ∈ term.vars, (s.image v).ground = true := by
  simp only [Term.ground_iff_vars_eq_nil, List.eq_nil_iff_forall_not_mem, mem_vars_apply, not_exists,
    not_and]
  exact ⟨fun none v occurs w => none w v occurs, fun none w v occurs => none v occurs w⟩

theorem mem_vars_apply_of_get? {v w : Variable} (found : s.get? v = some (.var w)) (occurs : v ∈ term.vars) :
    w ∈ (s.apply term).vars := by
  refine (mem_vars_apply s term).mpr ⟨v, occurs, ?_⟩
  rw [image_of_get? found]
  exact List.mem_singleton_self w

/-- What has a ground image is bound. -/
theorem get?_of_ground {v : Variable} (ground : (s.image v).ground = true) :
    s.get? v = some (s.image v) := by
  cases found : s.get? v with
  | none =>
    rw [image_of_get?_none found] at ground
    cases ground
  | some term => rw [image_of_get? found]

end Subst

namespace Term

variable {kind : Kind} {entries : List (Entry Term)} {frame : Option Term}

theorem keyed_splice (keyed : (normalized kind entries frame).Everywhere Term.keyed) :
    Entry.Keyed (splice kind entries frame).1 := by
  by_cases bare : (splice kind entries frame).1 = []
  · rw [bare]
    exact fun _ member => nomatch member
  · rw [normalized_eq_collection bare] at keyed
    exact keyed.here.subset fun entry => mem_arrange.mpr

/-- The parts of a collection have each key once if the collection in canonical form has. -/
theorem keyed_parts (keyed : (normalized kind entries frame).Everywhere Term.keyed) :
    (∀ entry ∈ entries, ∀ part ∈ entry.parts, part.Everywhere Term.keyed) ∧
      ∀ rest ∈ frame, rest.Everywhere Term.keyed := by
  have inherits : ∀ more frame', (∀ entry ∈ more, entry ∈ (splice kind entries frame).1) →
      Term.keyed (.collection kind more frame') :=
    fun _ _ among => (keyed_splice keyed).subset among
  exact Everywhere.of_normalized inherits keyed

private theorem ground_key_of_mem_splice (ground : (normalized kind entries frame).ground = true)
    {entry : Entry Term} (member : entry ∈ (splice kind entries frame).1) : entry.key.ground = true := by
  rw [normalized_eq_collection (List.ne_nil_of_mem member), ground_collection, Bool.and_eq_true,
    List.all_eq_true] at ground
  exact List.all_eq_true.mp (ground.1 entry (mem_arrange.mpr member)) _ entry.key_mem_parts

end Term

namespace Matching

open Term

variable {s : Subst} {kind : Kind} {entries : List (Entry Term)} {frame : Option Term} {term : Term}

/-- No substitution that takes the pattern to the subject merges entries of a set or a map. -/
def Unmerged (pattern subject : Term) : Prop :=
  ∀ s : Subst, s.Sorted → s.Canonical → s.apply pattern = subject → Apart s pattern

theorem spread_algebra (canonical : (Term.collection kind entries frame).Canonical) :
    s.algebra.spread kind entries frame =
      (splice kind (entries.map (Entry.map s.apply)) (frame.map s.apply)).1 := by
  have images : entries.map (Entry.map (fold s.algebra)) = entries.map (Entry.map s.apply) :=
    List.map_congr_left fun entry member => Entry.map_congr fun part inside =>
      (Subst.apply_eq_fold_algebra s (canonical.of_entry entry member part inside)).symm
  have image : frame.map (fold s.algebra) = frame.map s.apply :=
    Option.map_congr fun rest member => (Subst.apply_eq_fold_algebra s (canonical.of_frame rest member)).symm
  rw [Algebra.spread, images, image]

private theorem nodup_spread (images : s.Canonical) (canonical : (Term.collection kind entries frame).Canonical)
    (apart : apartAt s (.collection kind entries frame)) (merging : kind.idempotent = true) :
    (s.algebra.spread kind entries frame).Nodup := by
  rw [spread_algebra canonical, splice_append]
  exact (apartAt_iff_nodup images canonical merging).mp apart

/-- Where an instance is ground and has each key once, entries that do not merge have distinct keys. -/
theorem separates_of_apart (images : s.Canonical) (canonical : term.Canonical) (apart : Apart s term)
    (ground : (s.apply term).ground = true) (keyed : (s.apply term).Everywhere Term.keyed) :
    s.algebra.Separates term := by
  induction canonical with
  | var v => exact Everywhere.var_iff.mpr trivial
  | token sort value => exact Everywhere.token_iff.mpr trivial
  | app label sort parts ih =>
    rw [Subst.apply_app_eq] at ground keyed
    rw [ground_app, List.all_map, List.all_eq_true] at ground
    obtain ⟨_, inner⟩ := Everywhere.app_iff.mp keyed
    refine Everywhere.app_iff.mpr ⟨trivial, fun arg member => ?_⟩
    exact ih arg member ((Everywhere.app_iff.mp apart).2 arg member) (ground arg member)
      (inner _ (List.mem_map_of_mem member))
  | collection parts last arranged ihEntries ihFrame =>
    have whole := Canonical.collection parts last arranged
    obtain ⟨here, apartParts, apartLast⟩ := Everywhere.collection_iff.mp apart
    have inside := Subst.ground_apply_iff.mp ground
    rw [Subst.apply_collection_eq s whole] at ground keyed
    obtain ⟨keyedParts, keyedLast⟩ := keyed_parts keyed
    refine Everywhere.collection_iff.mpr ⟨fun merging => ?_, fun entry member part within => ?_,
      fun rest member => ?_⟩
    · have nodup := nodup_spread images whole here merging
      rw [spread_algebra whole] at nodup ⊢
      -- Equal keys are equal ground terms, and each of these belongs to one entry of the instance.
      exact nodup.map_on fun a memberA b memberB same =>
        keyed_splice keyed a memberA b memberB same (ground_key_of_mem_splice ground memberA)
    · refine ihEntries entry member part within (apartParts entry member part within) ?_ ?_
      · exact Subst.ground_apply_iff.mpr fun v occurs =>
          inside v (mem_vars_collection.mpr (.inl ⟨entry, member, part, within, occurs⟩))
      · refine keyedParts _ (List.mem_map_of_mem member) _ ?_
        rw [Entry.parts_map]
        exact List.mem_map_of_mem within
    · refine ihFrame rest member (apartLast rest member) ?_ ?_
      · exact Subst.ground_apply_iff.mpr fun v occurs =>
          inside v (mem_vars_collection.mpr (.inr ⟨rest, member, occurs⟩))
      · exact keyedLast _ (Option.mem_map_of_mem _ member)

end Matching

/-- Terms without function applications. -/
def Signature.callFree (sig : Signature) : Term.Fragment where
  label label _ := sig.isFunction label = false

theorem Signature.decomposable_callFree {sig : Signature} :
    (sig.declared.and sig.callFree).Decomposable sig {} where
  free _ _ allowed := allowed.2
  labelled first second := sort_eq_of_declared first.1 second.1
  var _ := trivial
  label _ _ _ := trivial
  token _ _ _ := trivial
  kind _ _ := trivial

/-- A rule that can be executed: nothing but sides and conditions, every variable on the left-hand
side, and no function application in it. -/
structure Rule.Executable (sig : Signature) (rule : Rule) : Prop extends rule.Bare where
  canonical : rule.lhs.Canonical
  checked : sig.check rule.lhs = .ok ()
  callFree : rule.lhs.Within sig.callFree
  bound : ∀ v ∈ rule.allVars, v ∈ rule.lhs.vars

/-- A well-sorted ground term without function applications. -/
structure Term.Concrete (sig : Signature) (term : Term) : Prop where
  canonical : term.Canonical
  checked : sig.check term = .ok ()
  callFree : term.Within sig.callFree
  ground : term.ground = true

namespace Rule

variable {sig : Signature} {rule : Rule} {apart s θ : Subst} {vars : List Variable} {first last : Fresh}
  {part : Term}

theorem Executable.proper (executable : rule.Executable sig) :
    rule.lhs.Proper (sig.declared.and sig.callFree) :=
  (Signature.proper_of_check executable.canonical executable.checked).and executable.callFree

/-- A part of the renamed rule goes where the part goes under a match, in canonical form or not: nothing
is bound on either side if there are no variables. -/
theorem Carries.apply_part (carries : Carries apart s θ vars) (renames : Renames apart vars first last)
    (canonical : s.Canonical) (domain : ∀ v term, θ.get? v = some term → v ∈ vars)
    (bare : vars = [] → s = .empty) (inside : ∀ v ∈ part.vars, v ∈ vars) :
    s.apply (apart.apply part) = θ.apply part := by
  cases vars with
  | nil =>
    have nothing : apart.isEmpty = true := Assoc.isEmpty_iff.mpr fun v => renames.free v List.not_mem_nil
    have unbound : θ.isEmpty = true := Assoc.isEmpty_iff.mpr fun v => by
      cases found : θ.get? v with
      | none => rfl
      | some term => cases domain v term found
    rw [bare rfl, Subst.apply, Subst.apply, Subst.apply, if_pos nothing, if_pos unbound]
    rfl
  | cons v rest =>
    obtain ⟨w, term, renamed, valued, given⟩ := carries v List.mem_cons_self
    have filled {other : Subst} {u : Variable} {image : Term} (found : other.get? u = some image) :
        other.isEmpty = false := by
      rw [Bool.eq_false_iff, Ne, Assoc.isEmpty_iff]
      intro unbound
      rw [unbound u] at found
      cases found
    rw [Subst.apply_eq_fold (filled valued), Subst.apply_eq_fold (filled given)]
    exact fold_renamed canonical.normalizing fun u occurs => carries.image (inside u occurs)

/-- What merges no entries of a part under a match merges none of the renamed part. -/
theorem Carries.separates (carries : Carries apart s θ vars) (renames : Renames apart vars first last)
    (images : s.Canonical) (canonical : part.Canonical) (inside : ∀ v ∈ part.vars, v ∈ vars)
    (separates : θ.algebra.Separates part) : s.algebra.Separates (apart.apply part) := by
  have onward : (s.algebra.after apart).Separates part := by
    refine @Term.Algebra.Separates.congr θ.algebra part _ (fun v occurs => ?_) separates
    obtain ⟨w, renamed, valued⟩ := carries.image (inside v occurs)
    rw [Subst.image_of_get? renamed]
    exact valued.symm
  refine .apply images.normalizing renames.canonical (fun v occurs => ?_) canonical onward
  obtain ⟨w, renamed, _⟩ := renames.bound v (inside v occurs)
  rw [Subst.image_of_get? renamed]
  exact Term.Everywhere.var_iff.mpr trivial

/-- The values of the new variables of a renaming, given to the old ones. -/
def carried (apart s : Subst) : Subst :=
  apart.mapValues s.apply

theorem get?_carried {v w : Variable} (renamed : apart.get? v = some (.var w)) :
    (carried apart s).get? v = some (s.image w) := by
  rw [carried, Assoc.get?_mapValues, renamed, Option.map_some, Subst.apply_var_eq]

theorem Renames.of_get?_carried (renames : Renames apart vars first last) {v : Variable} {image : Term}
    (held : (carried apart s).get? v = some image) :
    ∃ w, image = s.image w ∧ w.sort = v.sort ∧ v ∈ vars := by
  by_cases member : v ∈ vars
  · obtain ⟨w, renamed, sort, _⟩ := renames.bound v member
    exact ⟨w, Option.some.inj (held.symm.trans (get?_carried renamed)), sort, member⟩
  · rw [carried, Assoc.get?_mapValues, renames.free v member] at held
    cases held

private theorem Renames.sorted_carried (renames : Renames apart vars first last) (sorted : s.Sorted) :
    (carried apart s).Sorted := by
  intro v image held
  obtain ⟨w, rfl, sort, _⟩ := renames.of_get?_carried held
  exact sort ▸ sorted.image w

private theorem Renames.canonical_carried (renames : Renames apart vars first last) (canonical : s.Canonical) :
    (carried apart s).Canonical := by
  intro v image held
  obtain ⟨w, rfl, _⟩ := renames.of_get?_carried held
  exact canonical.image w

private theorem Renames.isSome_get?_carried (renames : Renames apart vars first last) (v : Variable) :
    ((carried apart s).get? v).isSome = true ↔ v ∈ vars := by
  constructor
  · intro held
    obtain ⟨image, held⟩ := Option.isSome_iff_exists.mp held
    obtain ⟨_, _, _, member⟩ := renames.of_get?_carried held
    exact member
  · intro member
    obtain ⟨w, renamed, _⟩ := renames.bound v member
    rw [get?_carried renamed]
    rfl

private theorem Renames.carries_carried (renames : Renames apart vars first last)
    (ground : ∀ v ∈ vars, ∀ w, apart.get? v = some (.var w) → (s.image w).ground = true) :
    Carries apart s (carried apart s) vars := by
  intro v member
  obtain ⟨w, renamed, _⟩ := renames.bound v member
  exact ⟨w, s.image w, renamed, Subst.get?_of_ground (ground v member w renamed), get?_carried renamed⟩

end Rule

theorem Term.Concrete.proper {sig : Signature} {term : Term} (concrete : term.Concrete sig) :
    term.Proper (sig.declared.and sig.callFree) :=
  (Signature.proper_of_check concrete.canonical concrete.checked).and concrete.callFree

theorem Term.Concrete.keyed {sig : Signature} {term : Term} (concrete : term.Concrete sig) :
    term.Everywhere Term.keyed :=
  Signature.everywhere_keyed concrete.canonical concrete.checked

namespace Unification

variable {sig : Signature} {pattern term : Term} {budget : Nat} {explore : Fresh → Unifiers}
  {fresh : Fresh} {unifier : Unifier}

/-- What a unifier of a pattern and a ground term comes to. -/
structure Grounds (pattern term : Term) (unifier : Unifier) : Prop where
  closed : unifier.residual = []
  sorted : unifier.subst.Sorted
  canonical : unifier.subst.Canonical
  image : unifier.subst.apply pattern = term
  bare : pattern.ground = true → unifier.subst = .empty

theorem Grounds.ground_image (grounds : Grounds pattern term unifier) (ground : term.ground = true)
    {v : Variable} (occurs : v ∈ pattern.vars) : (unifier.subst.image v).ground = true := by
  rw [← grounds.image] at ground
  exact Subst.ground_apply_iff.mp ground v occurs

/-- Where an instance of the unifier has a value, the unifier binds that value: what it binds is ground
already. -/
theorem Grounds.get?_of_instance {target : Term.Fragment} {s s' : Subst} {v : Variable} {value : Term}
    (grounds : Grounds pattern term unifier) (inst : Instance target s fresh unifier s')
    (ground : term.ground = true) (occurs : v ∈ pattern.vars) (avoids : fresh.Avoids v)
    (valued : s.get? v = some value) : unifier.subst.get? v = some value := by
  have closed := grounds.ground_image ground occurs
  have absorbed := inst.absorbs v
  rw [← Subst.apply_eq_fold_algebra s' (grounds.canonical.image v),
    (Matching.solves_ground (grounds.canonical.image v) closed).1] at absorbed
  have agreed : s'.image v = value := Subst.image_of_get? ((inst.agree v avoids).trans valued)
  rw [Subst.get?_of_ground closed, absorbed, ← agreed]
  rfl

private theorem grounds_of_delivers (proper : pattern.Proper (sig.declared.and sig.callFree))
    (concrete : term.Concrete sig) (started : unify sig budget pattern term = .ok explore)
    (delivers : (explore fresh).Delivers unifier) : Grounds pattern term unifier := by
  have decomposable := @Signature.decomposable_callFree sig
  have run := run_of_unify started delivers.yields
  have wellFormed := wellFormed_start proper concrete.proper
  have everyVar : ∀ v, (sig.declared.and sig.callFree).var v := fun _ => ⟨trivial, trivial⟩
  have sound := sound_of_run everyVar decomposable.labelled wellFormed run
  have closed := closed_of_run decomposable everyVar wellFormed rfl run
  have fixed {part : Term} (canonical : part.Canonical) (ground : part.ground = true) :
      unifier.subst.apply part = part :=
    (Matching.solves_ground canonical ground).1
  have image : unifier.subst.apply pattern = term :=
    (sound.apply_eq closed (List.mem_singleton_self _) proper.canonical concrete.canonical).trans
      (fixed concrete.canonical concrete.ground)
  refine ⟨closed, sound.sorted, sound.canonical, image, fun ground => ?_⟩
  rw [← image, fixed proper.canonical ground] at run
  exact subst_of_run_self run

end Unification

namespace Engine

open Unification

section Correspondence

variable {sig : Signature} {rule : Rule} {term : Term} {θ : Subst} {fresh last : Fresh} {budget : Nat}
  {explore : Fresh → Unifiers} {unifier : Unifier} (executable : rule.Executable sig)
  (concrete : term.Concrete sig)
  (started : unify sig budget (rule.renameApart fresh).1.lhs term = .ok explore)
include executable concrete started

theorem grounds_of_renamed (unwrapped : (rule.renameApart fresh).2.position ≤ 2 ^ 64)
    (delivers : (explore (rule.renameApart fresh).2).Delivers unifier) :
    Grounds (rule.renameApart fresh).1.lhs term unifier := by
  have renames := rule.renames_renameApart fresh unwrapped
  have proper := renames.proper_apply executable.proper fun v => Rule.mem_allVars_of_lhs
  refine grounds_of_delivers (proper.mono fun node allowed => ?_) concrete started delivers
  cases node with
  | var v => exact ⟨trivial, trivial⟩
  | _ => exact allowed

/-- A match that merges no entries is what some unifier gives to the renamed variables. -/
theorem exists_unifier_of_isMatch (matched : Matching.IsCanonicalMatch .empty rule.lhs term θ)
    (ends : (explore (rule.renameApart fresh).2).Ends last) (unwrapped : last.position ≤ 2 ^ 64) :
    ∃ unifier, (explore (rule.renameApart fresh).2).Delivers unifier ∧
      Rule.Carries (Rule.freshRenaming rule.allVars fresh).1 unifier.subst θ rule.allVars := by
  have decomposable := @Signature.decomposable_callFree sig
  have forward := (position_of_ends started ends).trans unwrapped
  have renames := rule.renames_renameApart fresh forward
  have proper := decomposable.proper concrete.proper
  have avoids (counter : Fresh) : ∀ v ∈ term.vars, counter.Avoids v := by
    rw [(Term.ground_iff_vars_eq_nil term).mp concrete.ground]
    exact fun _ member => nomatch member
  have nothing : Subst.Fitting {} Assoc.empty := ⟨nofun, nofun⟩
  obtain ⟨merged, fitting, carries, _, _, same⟩ := exists_merged executable.bound concrete.canonical proper
    (avoids fresh) nothing (matched.isInstance executable.canonical) forward
  have fixed := Matching.solves_ground (s := merged) concrete.canonical concrete.ground
  have apartLeft : merged.algebra.Separates (rule.renameApart fresh).1.lhs := by
    refine carries.separates renames fitting.canonical executable.canonical
      (fun v => Rule.mem_allVars_of_lhs) ?_
    exact Matching.separates_of_apart matched.canonical executable.canonical matched.apart
      (by rw [matched.image]; exact concrete.ground) (by rw [matched.image]; exact concrete.keyed)
  have apartRight : merged.algebra.Separates term :=
    Matching.separates_of_apart fitting.canonical concrete.canonical fixed.2
      (by rw [fixed.1]; exact concrete.ground) (by rw [fixed.1]; exact concrete.keyed)
  obtain ⟨unifier, s', delivers, inst⟩ := unify_covers decomposable
    (renames.proper_apply executable.proper fun v => Rule.mem_allVars_of_lhs)
    ⟨concrete.canonical, Term.within_upTo concrete.proper.within (avoids _), concrete.proper.shaped⟩
    fitting apartLeft apartRight same started ends unwrapped
  have grounds := grounds_of_renamed executable concrete started forward delivers
  refine ⟨unifier, delivers, fun v member => ?_⟩
  obtain ⟨w, value, renamed, valued, given⟩ := carries v member
  obtain ⟨_, shape, _, drawn⟩ := renames.get? renamed
  cases shape
  refine ⟨w, value, renamed, ?_, given⟩
  exact grounds.get?_of_instance inst concrete.ground
    (Subst.mem_vars_apply_of_get? renamed (executable.bound v member)) drawn.avoids valued

/-- What a unifier gives to the renamed variables is a match, provided that it merges no entries. -/
theorem exists_isMatch_of_unifier (unwrapped : (rule.renameApart fresh).2.position ≤ 2 ^ 64)
    (delivers : (explore (rule.renameApart fresh).2).Delivers unifier)
    (unmerged : Matching.Unmerged rule.lhs term) :
    ∃ θ ∈ (Matching.enumerate rule.lhs term).toList,
      Rule.Carries (Rule.freshRenaming rule.allVars fresh).1 unifier.subst θ rule.allVars := by
  have grounds := grounds_of_renamed executable concrete started unwrapped delivers
  have renames := rule.renames_renameApart fresh unwrapped
  have carries := @Rule.Renames.carries_carried _ unifier.subst _ _ _ renames fun v member w renamed =>
    grounds.ground_image concrete.ground
      (Subst.mem_vars_apply_of_get? renamed (executable.bound v member))
  have sorted := renames.sorted_carried grounds.sorted
  have canonical := renames.canonical_carried grounds.canonical
  have image := (carries.apply_apply (fun v => Rule.mem_allVars_of_lhs) renames.canonical
    grounds.canonical executable.canonical).symm.trans grounds.image
  have extension : Matching.Extension .empty (· ∈ rule.lhs.vars)
      (Rule.carried (Rule.freshRenaming rule.allVars fresh).1 unifier.subst) := by
    refine ⟨nofun, fun v => ?_, fun v term _ held => sorted v term held⟩
    rw [renames.isSome_get?_carried]
    exact ⟨fun member => .inr (executable.bound v member), fun occurs =>
      Rule.mem_allVars_of_lhs (occurs.resolve_left nofun)⟩
  have unseeded : Subst.Canonical Assoc.empty := nofun
  have lists := Matching.Problem.solve_lists _ (Matching.invariant_of_check executable.canonical
    concrete.canonical executable.checked concrete.checked unseeded) (Nat.le_refl _)
  obtain ⟨θ, member, same⟩ := lists.complete _ (Matching.isCanonicalMatch_iff.mp
    ⟨⟨extension, image, unmerged _ sorted canonical image⟩, canonical⟩)
  refine ⟨θ, member, fun v occurs => ?_⟩
  obtain ⟨w, value, renamed, valued, held⟩ := carries v occurs
  exact ⟨w, value, renamed, valued, (same v).trans held⟩

end Correspondence

end Engine

end Reach
