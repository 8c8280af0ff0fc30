import Mathlib.Logic.Equiv.Basic
import Reach.Proofs.Subterm

/-!
Terms with their variables renamed. A bijection that keeps the sorts changes neither the shape nor the
sort of a term, can be undone, and commutes with substitution.
-/

namespace Reach

namespace Term

def relabeled (r : Variable → Variable) : Algebra Term where
  var v := .var (r v)
  app := .app
  token := .token
  collection := .normalized

/-- The term with its variables renamed, in canonical form. -/
def rename (r : Variable → Variable) (term : Term) : Term :=
  term.fold (relabeled r)

section Rename

variable {r : Variable → Variable} {kind : Kind} {entries : List (Entry Term)} {frame : Option Term}
  {term : Term} {algebra : Algebra Term}

theorem normalizing_relabeled (r : Variable → Variable) : (relabeled r).Normalizing where
  var v := .var (r v)
  app label sort _ parts := .app label sort parts
  token sort value := .token sort value
  collection := rfl

theorem canonical_rename (r : Variable → Variable) (term : Term) : (term.rename r).Canonical :=
  (normalizing_relabeled r).canonical term

@[simp]
theorem rename_var (v : Variable) : (var v).rename r = var (r v) :=
  rfl

@[simp]
theorem rename_token (sort : TermSort) (value : String) :
    (token sort value).rename r = token sort value :=
  rfl

@[simp]
theorem rename_app (label : String) (sort : TermSort) (args : List Term) :
    (app label sort args).rename r = app label sort (args.map (rename r)) :=
  fold_app _ label sort args

theorem rename_normalized (kind : Kind) (entries : List (Entry Term)) (frame : Option Term) :
    (normalized kind entries frame).rename r =
      normalized kind (entries.map (Entry.map (rename r))) (frame.map (rename r)) :=
  (normalizing_relabeled r).fold_normalized kind entries frame

theorem rename_collection (kind : Kind) (entries : List (Entry Term)) (frame : Option Term) :
    (collection kind entries frame).rename r =
      normalized kind (entries.map (Entry.map (rename r))) (frame.map (rename r)) :=
  (normalizing_relabeled r).fold_collection_eq kind entries frame

/-- Renaming first and folding afterwards is one fold. -/
theorem fold_rename (normalizing : algebra.Normalizing) (r : Variable → Variable) (term : Term) :
    (term.rename r).fold algebra = term.fold { algebra with var := fun v => algebra.var (r v) } := by
  induction term using induct with
  | var v => rfl
  | token sort value => rfl
  | app label sort args ih =>
    rw [rename_app, fold_app, fold_app, List.map_map]
    exact congrArg _ (List.map_congr_left fun arg member => ih arg member)
  | collection kind entries frame ihEntries ihFrame =>
    rw [rename_collection, normalizing.fold_normalized, fold_collection, List.map_map, Option.map_map]
    refine (congrArg₂ _ (List.map_congr_left fun entry member => ?_)
      (Option.map_congr fun rest member => ihFrame rest member)).trans
      (congrFun (congrFun (congrFun normalizing.collection.symm kind) _) _)
    rw [Function.comp_apply, Entry.map_map]
    exact Entry.map_congr fun part inside => ihEntries entry member part inside

private theorem rename_rename (r r' : Variable → Variable) (term : Term) :
    (term.rename r).rename r' = term.rename (r' ∘ r) :=
  fold_rename (normalizing_relabeled r') r term

theorem rename_id (canonical : term.Canonical) : term.rename id = term :=
  fold_eq_self canonical rfl rfl (fun _ _ => rfl) (.of_forall fun node => by
    cases node <;> first | rfl | trivial)

/-- A bijective renaming can be undone. -/
theorem rename_symm (r : Equiv.Perm Variable) (canonical : term.Canonical) :
    (term.rename r).rename r.symm = term := by
  rw [rename_rename, Equiv.symm_comp_self, rename_id canonical]

theorem rename_inj (r : Equiv.Perm Variable) {other : Term} (canonical : term.Canonical)
    (canonical' : other.Canonical) : term.rename r = other.rename r ↔ term = other := by
  refine ⟨fun same => ?_, congrArg _⟩
  rw [← rename_symm r canonical, same, rename_symm r canonical']

theorem mem_vars_rename {w : Variable} : w ∈ (term.rename r).vars ↔ ∃ v ∈ term.vars, r v = w := by
  induction term using induct with
  | var v => simp [eq_comm]
  | token sort value => simp
  | app label sort args ih =>
    rw [rename_app, mem_vars_app]
    constructor
    · rintro ⟨image, member, occurs⟩
      obtain ⟨arg, inside, rfl⟩ := List.mem_map.mp member
      obtain ⟨v, known, rfl⟩ := (ih arg inside).mp occurs
      exact ⟨v, mem_vars_app.mpr ⟨arg, inside, known⟩, rfl⟩
    · rintro ⟨v, known, rfl⟩
      obtain ⟨arg, inside, occurs⟩ := mem_vars_app.mp known
      exact ⟨_, List.mem_map_of_mem inside, (ih arg inside).mpr ⟨v, occurs, rfl⟩⟩
  | collection kind entries frame ihEntries ihFrame =>
    rw [rename_collection, mem_vars_normalized]
    constructor
    · rintro (⟨image, member, part, inside, occurs⟩ | ⟨image, member, occurs⟩)
      · obtain ⟨entry, present, piece, within, rfl⟩ := Entry.mem_parts_map member inside
        obtain ⟨v, known, rfl⟩ := (ihEntries entry present piece within).mp occurs
        exact ⟨v, mem_vars_collection.mpr (.inl ⟨entry, present, piece, within, known⟩), rfl⟩
      · obtain ⟨rest, present, rfl⟩ := Option.map_eq_some_iff.mp member
        obtain ⟨v, known, rfl⟩ := (ihFrame rest present).mp occurs
        exact ⟨v, mem_vars_collection.mpr (.inr ⟨rest, present, known⟩), rfl⟩
    · rintro ⟨v, known, rfl⟩
      rcases mem_vars_collection.mp known with ⟨entry, present, part, inside, occurs⟩ |
        ⟨rest, present, occurs⟩
      · refine .inl ⟨_, List.mem_map_of_mem present, part.rename r, ?_,
          (ihEntries entry present part inside).mpr ⟨v, occurs, rfl⟩⟩
        rw [Entry.parts_map]
        exact List.mem_map_of_mem inside
      · exact .inr ⟨_, Option.mem_map_of_mem _ present, (ihFrame rest present).mpr ⟨v, occurs, rfl⟩⟩

theorem mentions_rename (r : Equiv.Perm Variable) (v : Variable) :
    (term.rename r).mentions (r v) = term.mentions v := by
  rw [Bool.eq_iff_iff, ← mem_vars_iff_mentions, ← mem_vars_iff_mentions, mem_vars_rename]
  simp

end Rename

section Shape

variable {r : Variable → Variable} {kind : Kind} {entries : List (Entry Term)} {frame : Option Term}
  {term : Term}

/-- A collection is renamed to a collection of its kind. -/
theorem kind?_rename (canonical : term.Canonical) : (term.rename r).kind? = term.kind? := by
  cases canonical with
  | var v => rfl
  | token sort value => rfl
  | app label sort parts =>
    rw [rename_app]
    rfl
  | collection parts rest arranged =>
    rename_i kind entries frame
    obtain ⟨_, _, bare⟩ := normalized_eq_self_iff.mp arranged
    rw [rename_collection]
    by_cases filled : entries = []
    · rw [bare filled, filled]
      exact congrArg kind? (normalized_nil_none kind)
    · exact kind?_normalized_of_filled (by simpa using filled)

theorem exists_collection_rename (canonical : (collection kind entries frame).Canonical) :
    ∃ entries' frame', (collection kind entries frame).rename r = collection kind entries' frame' := by
  have shape := kind?_rename (r := r) canonical
  cases renamed : (collection kind entries frame).rename r with
  | collection kind' entries' frame' =>
    rw [renamed] at shape
    cases shape
    exact ⟨entries', frame', rfl⟩
  | _ =>
    rw [renamed] at shape
    cases shape

theorem sort_rename (sorts : ∀ v, (r v).sort = v.sort) (canonical : term.Canonical) :
    (term.rename r).sort = term.sort := by
  cases canonical with
  | var v => exact sorts v
  | token sort value => rfl
  | app label sort parts =>
    rw [rename_app]
    rfl
  | collection parts rest arranged =>
    rename_i kind entries frame
    obtain ⟨_, _, bare⟩ := normalized_eq_self_iff.mp arranged
    rw [rename_collection]
    by_cases filled : entries = []
    · rw [bare filled, filled]
      exact congrArg Term.sort (normalized_nil_none kind)
    · exact sort_normalized_of_filled (by simpa using filled)

/-- A list keeps its entries in order. -/
theorem rename_list (canonical : (collection .list entries frame).Canonical) :
    (collection .list entries frame).rename r =
      collection .list (entries.map (Entry.map (rename r))) (frame.map (rename r)) := by
  obtain ⟨_, closed, bare⟩ := normalized_eq_self_iff.mp canonical.normalized_eq
  rw [rename_collection, normalized_eq_self_iff]
  refine ⟨rfl, fun image member => ?_, fun none => ?_⟩
  · obtain ⟨rest, present, rfl⟩ := Option.map_eq_some_iff.mp member
    rw [kind?_rename (canonical.of_frame rest present)]
    exact closed rest present
  · rw [bare (List.map_eq_nil_iff.mp none)]
    rfl

end Shape

end Term

namespace Subst

open Term

variable {r r' : Variable → Variable} {s s' : Subst} {term : Term}

/-- Where renamed variables are bound to renamed terms, renaming commutes with substitution. -/
theorem apply_rename (images : s'.Canonical)
    (same : ∀ v ∈ term.vars, s'.image (r v) = (s.image v).rename r') :
    s'.apply (term.rename r) = (s.apply term).rename r' := by
  have renamed : (s.apply term).rename r' = term.fold ((relabeled r').after s) :=
    (normalizing_relabeled r').fold_apply s term
  rw [renamed, apply_eq_fold_algebra s' (canonical_rename r term), fold_rename images.normalizing]
  exact (fold_congr same).trans rfl

end Subst

end Reach
