import Reach.Proofs.Canonical
import Reach.Subst

/-!
Folds that keep terms canonical: substitution, evaluation, and evaluation under an assignment of the
variables. Each is a homomorphism for the canonical form of collections, so that substituting first
and folding afterwards is one fold.
-/

namespace Reach

namespace Entry

theorem map_map {α β γ : Type} (g : β → γ) (f : α → β) (entry : Entry α) :
    (entry.map f).map g = entry.map (g ∘ f) := by
  cases entry <;> rfl

theorem map_eq_self {α : Type} {f : α → α} {entry : Entry α}
    (fixed : ∀ part ∈ entry.parts, f part = part) : entry.map f = entry := by
  cases entry <;> simp_all [map, parts]

@[simp]
theorem map_id {α : Type} (entry : Entry α) : entry.map id = entry :=
  map_eq_self fun _ _ => rfl

/-- The parts of the images of some entries are the images of their parts. -/
theorem mem_parts_map {α β : Type} {f : α → β} {entries : List (Entry α)} {entry : Entry β} {part : β}
    (member : entry ∈ entries.map (Entry.map f)) (inside : part ∈ entry.parts) :
    ∃ source ∈ entries, ∃ piece ∈ source.parts, f piece = part := by
  obtain ⟨source, present, rfl⟩ := List.mem_map.mp member
  rw [parts_map] at inside
  obtain ⟨piece, within, same⟩ := List.mem_map.mp inside
  exact ⟨source, present, piece, within, same⟩

end Entry

namespace Term

section Congruence

variable {β : Type} {algebra : Algebra β}

/-- A fold depends on the variables that occur and on no others. -/
theorem fold_congr {onVar : Variable → β} {term : Term}
    (same : ∀ v ∈ term.vars, algebra.var v = onVar v) :
    term.fold algebra = term.fold { algebra with var := onVar } := by
  induction term using induct with
  | var v => exact same v (by simp)
  | app label sort args ih =>
    simp only [fold_app]
    refine congrArg _ (List.map_congr_left fun arg member => ih arg member fun v inside => ?_)
    exact same v (by rw [vars_app]; exact List.mem_flatMap.mpr ⟨arg, member, inside⟩)
  | token sort value => rfl
  | collection kind entries frame ihEntries ihFrame =>
    simp only [vars_collection, List.mem_append, List.mem_flatMap] at same
    simp only [fold_collection]
    congr 1
    · refine List.map_congr_left fun entry member => Entry.map_congr fun part inside => ?_
      exact ihEntries entry member part inside fun v occurs =>
        same v (.inl ⟨entry, member, part, inside, occurs⟩)
    · refine Option.map_congr fun rest member => ihFrame rest member fun v occurs => ?_
      exact same v (.inr ⟨rest, by simpa using member, occurs⟩)

end Congruence

/-- An algebra that makes canonical terms out of canonical terms, collections included. -/
structure Algebra.Normalizing (algebra : Algebra Term) : Prop where
  var : ∀ v, Canonical (algebra.var v)
  app : ∀ label sort args, (∀ arg ∈ args, Canonical arg) → Canonical (algebra.app label sort args)
  token : ∀ sort value, Canonical (algebra.token sort value)
  collection : algebra.collection = normalized

section Homomorphism

variable {algebra : Algebra Term} {kind : Kind} {entries : List (Entry Term)} {frame : Option Term}

/-- The fold of a frame adds what the contents of the frame fold to. -/
theorem normalized_some_fold (rebuilds : algebra.collection = normalized)
    (entries : List (Entry Term)) (term : Term) :
    normalized kind entries (some (term.fold algebra)) =
      normalized kind (entries ++ (contents kind term).1.map (Entry.map (fold algebra)))
        ((contents kind term).2.map (fold algebra)) := by
  induction term using induct generalizing entries with
  | var v => simp [contents, spliceTerm]
  | app label sort args ih => simp [contents, spliceTerm]
  | token sort value => simp [contents, spliceTerm]
  | collection inner more frame ihEntries ihFrame =>
    by_cases same : inner = kind
    · subst same
      rw [fold_collection, rebuilds, normalized_nested, contents_collection]
      cases frame with
      | none => rfl
      | some rest =>
        rw [Option.map_some, ihFrame rest rfl, splice_some, List.map_append, List.append_assoc]
    · have other : (collection inner more frame).kind? ≠ some kind := fun eq =>
        same (Option.some.inj eq)
      rw [contents_of_kind other, List.map_nil, List.append_nil, Option.map_some]

theorem normalized_map_fold (rebuilds : algebra.collection = normalized) :
    normalized kind (entries.map (Entry.map (fold algebra))) (frame.map (fold algebra)) =
      normalized kind ((splice kind entries frame).1.map (Entry.map (fold algebra)))
        ((splice kind entries frame).2.map (fold algebra)) := by
  cases frame with
  | none => rfl
  | some term =>
    rw [Option.map_some, normalized_some_fold rebuilds, splice_some, List.map_append]

/-- Where there are entries, folding a canonical form folds its parts. -/
theorem fold_normalized_of_filled (rebuilds : algebra.collection = normalized)
    (filled : (splice kind entries frame).1 ≠ []) :
    (normalized kind entries frame).fold algebra =
      normalized kind (entries.map (Entry.map (fold algebra))) (frame.map (fold algebra)) := by
  rw [normalized_map_fold rebuilds, normalized_eq_collection filled, fold_collection, rebuilds]
  exact normalized_congr _ ((arrange_same kind _).map _)

namespace Algebra.Normalizing

variable (normalizing : algebra.Normalizing)
include normalizing

theorem canonical (term : Term) : Canonical (term.fold algebra) := by
  induction term using induct with
  | var v => exact normalizing.var v
  | app label sort args ih =>
    rw [fold_app]
    refine normalizing.app label sort _ fun image member => ?_
    obtain ⟨arg, inside, rfl⟩ := List.mem_map.mp member
    exact ih arg inside
  | token sort value => exact normalizing.token sort value
  | collection kind entries frame ihEntries ihFrame =>
    rw [fold_collection, normalizing.collection]
    refine .normalized (fun entry member part inside => ?_) (fun rest member => ?_)
    · obtain ⟨source, present, rfl⟩ := List.mem_map.mp member
      rw [Entry.parts_map] at inside
      obtain ⟨piece, within, rfl⟩ := List.mem_map.mp inside
      exact ihEntries source present piece within
    · obtain ⟨source, present, rfl⟩ := Option.map_eq_some_iff.mp member
      exact ihFrame source present

/-- Folding commutes with putting a collection in canonical form. -/
theorem fold_normalized (kind : Kind) (entries : List (Entry Term)) (frame : Option Term) :
    (normalized kind entries frame).fold algebra =
      normalized kind (entries.map (Entry.map (fold algebra))) (frame.map (fold algebra)) := by
  by_cases bare : (splice kind entries frame).1 = []
  · rw [normalized_map_fold normalizing.collection, normalized_eq_getD bare, bare]
    cases left : (splice kind entries frame).2 with
    | none => simp [empty, normalizing.collection]
    | some rest => exact (normalizing.canonical rest).normalized_nil_some.symm
  · exact fold_normalized_of_filled normalizing.collection bare

theorem fold_collection_eq (kind : Kind) (entries : List (Entry Term)) (frame : Option Term) :
    (Term.collection kind entries frame).fold algebra =
      normalized kind (entries.map (Entry.map (fold algebra))) (frame.map (fold algebra)) := by
  rw [fold_collection, normalizing.collection]

end Algebra.Normalizing

end Homomorphism

end Term

namespace Subst

variable {s : Subst}

theorem image_of_isEmpty (empty : s.isEmpty = true) (v : Variable) : s.image v = .var v := by
  have bare : s.entries = [] := by simpa [Assoc.isEmpty] using empty
  simp [image, Assoc.get?, bare, Assoc.find]

theorem apply_var_eq (s : Subst) (v : Variable) : s.apply (.var v) = s.image v := by
  by_cases empty : s.isEmpty = true
  · rw [image_of_isEmpty empty, apply, if_pos empty]
  · exact apply_var (by simpa using empty) v

theorem apply_eq_id_of_isEmpty (empty : s.isEmpty = true) : s.apply = id := by
  funext term
  rw [apply, if_pos empty]
  rfl

theorem apply_token_eq (s : Subst) (sort : TermSort) (value : String) :
    s.apply (.token sort value) = .token sort value := by
  by_cases empty : s.isEmpty = true
  · rw [apply_eq_id_of_isEmpty empty]
    rfl
  · exact apply_token (by simpa using empty) sort value

theorem apply_app_eq (s : Subst) (label : String) (sort : TermSort) (args : List Term) :
    s.apply (.app label sort args) = .app label sort (args.map s.apply) := by
  by_cases empty : s.isEmpty = true
  · rw [apply_eq_id_of_isEmpty empty, List.map_id]
    rfl
  · exact apply_app (by simpa using empty) label sort args

theorem apply_collection_eq (s : Subst) {kind : Kind} {entries : List (Entry Term)}
    {frame : Option Term} (canonical : (Term.collection kind entries frame).Canonical) :
    s.apply (.collection kind entries frame) =
      .normalized kind (entries.map (Entry.map s.apply)) (frame.map s.apply) := by
  by_cases empty : s.isEmpty = true
  · have same : entries.map (Entry.map id) = entries :=
      (List.map_congr_left fun entry _ => Entry.map_eq_self fun _ _ => rfl).trans
        (List.map_id entries)
    rw [apply_eq_id_of_isEmpty empty, same, Option.map_id]
    exact canonical.normalized_eq.symm
  · exact apply_collection (by simpa using empty) kind entries frame

/-- A term whose variables stay as they are stays as it is, provided that it is canonical. -/
theorem fold_algebra_eq_self {term : Term} (canonical : term.Canonical)
    (fixed : ∀ v ∈ term.vars, s.image v = .var v) : term.fold s.algebra = term := by
  induction canonical with
  | var v => exact fixed v (by simp)
  | app label sort parts ih =>
    rename_i args
    have same : args.map (Term.fold s.algebra) = args := by
      refine (List.map_congr_left fun arg member => ?_).trans (List.map_id args)
      refine ih arg member fun v inside => fixed v ?_
      rw [Term.vars_app]
      exact List.mem_flatMap.mpr ⟨arg, member, inside⟩
    rw [Term.fold_app, same]
    rfl
  | token sort value => rfl
  | collection parts rest arranged ihEntries ihFrame =>
    rename_i kind entries frame
    simp only [Term.vars_collection, List.mem_append, List.mem_flatMap] at fixed
    have sameEntries : entries.map (Entry.map (Term.fold s.algebra)) = entries := by
      refine (List.map_congr_left fun entry member => ?_).trans (List.map_id entries)
      refine Entry.map_eq_self fun part inside => ihEntries entry member part inside ?_
      exact fun v occurs => fixed v (.inl ⟨entry, member, part, inside, occurs⟩)
    have sameFrame : frame.map (Term.fold s.algebra) = frame := by
      cases frame with
      | none => rfl
      | some last =>
        refine congrArg some (ihFrame last rfl fun v occurs => ?_)
        exact fixed v (.inr ⟨last, by simp, occurs⟩)
    rw [Term.fold_collection, sameEntries, sameFrame]
    exact arranged

/-- On canonical terms substitution is a fold, whether or not anything is bound. -/
theorem apply_eq_fold_algebra (s : Subst) {term : Term} (canonical : term.Canonical) :
    s.apply term = term.fold s.algebra := by
  by_cases empty : s.isEmpty = true
  · rw [apply, if_pos empty, fold_algebra_eq_self canonical fun v _ => image_of_isEmpty empty v]
  · exact apply_eq_fold (by simpa using empty) term

/-- Every variable is bound to a canonical term. -/
def Canonical (s : Subst) : Prop :=
  ∀ v term, s.get? v = some term → term.Canonical

theorem Canonical.image (canonical : s.Canonical) (v : Variable) : (s.image v).Canonical := by
  cases bound : s.get? v with
  | none => simpa [Subst.image, bound] using Term.Canonical.var v
  | some term => simpa [Subst.image, bound] using canonical v term bound

theorem Canonical.normalizing (canonical : s.Canonical) : s.algebra.Normalizing where
  var := canonical.image
  app label sort _ parts := .app label sort parts
  token := .token
  collection := rfl

theorem Canonical.apply (canonical : s.Canonical) {term : Term} (whole : term.Canonical) :
    (s.apply term).Canonical := by
  rw [apply_eq_fold_algebra s whole]
  exact canonical.normalizing.canonical term

end Subst

namespace Term.Algebra

/-- First a substitution, then a fold. -/
def after (algebra : Algebra Term) (s : Subst) : Algebra Term :=
  { algebra with var := fun v => (s.image v).fold algebra }

variable {algebra : Algebra Term} {s : Subst}

theorem Normalizing.after (normalizing : algebra.Normalizing) (s : Subst) :
    (algebra.after s).Normalizing where
  var v := normalizing.canonical (s.image v)
  app := normalizing.app
  token := normalizing.token
  collection := normalizing.collection

private theorem after_of_isEmpty (empty : s.isEmpty = true) : algebra.after s = algebra := by
  have same : (fun v => (s.image v).fold algebra) = algebra.var := by
    funext v
    rw [Subst.image_of_isEmpty empty, fold_var]
  rw [after, same]

/-- Folding an instance of a term is one fold of the term. -/
theorem Normalizing.fold_apply (normalizing : algebra.Normalizing) (s : Subst) (term : Term) :
    (s.apply term).fold algebra = term.fold (algebra.after s) := by
  by_cases empty : s.isEmpty = true
  · rw [after_of_isEmpty empty, Subst.apply, if_pos empty]
  rw [Subst.apply_eq_fold (by simpa using empty)]
  induction term using induct with
  | var v => rfl
  | app label sort args ih =>
    rw [fold_app, fold_app]
    have outer : ∀ images, (Term.app label sort images).fold algebra =
        algebra.app label sort (images.map (fold algebra)) := fold_app algebra label sort
    refine (outer _).trans (congrArg _ ?_)
    rw [List.map_map]
    exact List.map_congr_left fun arg member => ih arg member
  | token sort value => rfl
  | collection kind entries frame ihEntries ihFrame =>
    rw [fold_collection, (normalizing.after s).fold_collection_eq]
    refine (normalizing.fold_normalized kind _ _).trans ?_
    rw [List.map_map, Option.map_map]
    congr 1
    · refine List.map_congr_left fun entry member => ?_
      rw [Function.comp_apply, Entry.map_map]
      exact Entry.map_congr fun part inside => ihEntries entry member part inside
    · exact Option.map_congr fun rest member => ihFrame rest member

/-- The fold does not see whether the substitution was applied. -/
def Absorbs (algebra : Algebra Term) (s : Subst) : Prop :=
  ∀ v, (s.image v).fold algebra = algebra.var v

theorem Absorbs.fold_apply (absorbs : algebra.Absorbs s) (normalizing : algebra.Normalizing)
    (term : Term) : (s.apply term).fold algebra = term.fold algebra := by
  have same : algebra.after s = algebra := by rw [after, funext absorbs]
  rw [normalizing.fold_apply, same]

end Term.Algebra

end Reach
