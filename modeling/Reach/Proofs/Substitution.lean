import Reach.Proofs.Interpretation

/-!
Laws of substitutions: which variables an instance mentions, which sort it has, and that a
composition is sequential application. An idempotent substitution binds no variable that its
images mention.
-/

namespace Reach

namespace Term

section Variables

variable {kind : Kind} {entries : List (Entry Term)} {frame : Option Term} {v : Variable}

/-- A variable occurs in an entry. -/
def occursIn (v : Variable) (entry : Entry Term) : Prop :=
  ∃ part ∈ entry.parts, v ∈ part.vars

theorem mem_vars_app {label : String} {sort : TermSort} {args : List Term} :
    v ∈ (app label sort args).vars ↔ ∃ arg ∈ args, v ∈ arg.vars := by
  rw [vars_app, List.mem_flatMap]

theorem mem_vars_collection :
    v ∈ (collection kind entries frame).vars ↔
      (∃ entry ∈ entries, occursIn v entry) ∨ ∃ rest ∈ frame, v ∈ rest.vars := by
  rw [vars_collection, List.mem_append, List.mem_flatMap, List.mem_flatMap]
  simp only [occursIn, List.mem_flatMap, Option.mem_toList, Option.mem_def]

private theorem mem_vars_splice :
    ((∃ entry ∈ (splice kind entries frame).1, occursIn v entry) ∨
        ∃ rest ∈ (splice kind entries frame).2, v ∈ rest.vars) ↔
      (∃ entry ∈ entries, occursIn v entry) ∨ ∃ rest ∈ frame, v ∈ rest.vars := by
  cases frame with
  | none => rfl
  | some term =>
    induction term using induct generalizing entries with
    | var w => simp [contents, spliceTerm]
    | app label sort args ih => simp [contents, spliceTerm]
    | token sort value => simp [contents, spliceTerm]
    | collection inner more frame ihEntries ihFrame =>
      by_cases same : inner = kind
      · subst same
        rw [splice_some, contents_collection]
        cases frame with
        | none => simp [occursIn, or_and_right, exists_or]
        | some rest =>
          have step := @ihFrame rest rfl (entries ++ more)
          rw [splice_some] at step ⊢
          simp only [← List.append_assoc]
          rw [step]
          simp [occursIn, or_and_right, exists_or, or_assoc]
      · have other : (collection inner more frame).kind? ≠ some kind := fun eq =>
          same (Option.some.inj eq)
        rw [splice_some, contents_of_kind other, List.append_nil]

theorem mem_vars_normalized :
    v ∈ (normalized kind entries frame).vars ↔
      (∃ entry ∈ entries, occursIn v entry) ∨ ∃ rest ∈ frame, v ∈ rest.vars := by
  rw [← @mem_vars_splice kind]
  by_cases bare : (splice kind entries frame).1 = []
  · rw [normalized_eq_getD bare, bare]
    cases (splice kind entries frame).2 <;> simp [empty]
  · rw [normalized_eq_collection bare, mem_vars_collection]
    simp only [mem_arrange]

theorem mem_splice_of_mem {entry : Entry Term} (member : entry ∈ entries) :
    entry ∈ (splice kind entries frame).1 := by
  cases frame with
  | none => exact member
  | some term =>
    rw [splice_some]
    exact List.mem_append_left _ member

theorem splice_ne_nil (filled : entries ≠ []) : (splice kind entries frame).1 ≠ [] := by
  cases frame with
  | none => exact filled
  | some term =>
    rw [splice_some]
    exact List.append_ne_nil_of_left_ne_nil filled _

theorem kind?_normalized_of_filled (filled : entries ≠ []) :
    (normalized kind entries frame).kind? = some kind := by
  rw [normalized_eq_collection (splice_ne_nil filled)]
  rfl

theorem sort_normalized_of_filled (filled : entries ≠ []) :
    (normalized kind entries frame).sort = kind.sort := by
  rw [normalized_eq_collection (splice_ne_nil filled)]
  rfl

/-- The frames of a kind have the sort of its collections, and so has what they are put into. -/
theorem sort_normalized (frames : ∀ rest ∈ frame, rest.sort = kind.sort)
    (canonical : ∀ rest ∈ frame, Canonical rest) :
    (normalized kind entries frame).sort = kind.sort := by
  by_cases filled : entries = []
  · subst filled
    cases frame with
    | none =>
      rw [normalized_nil_none]
      rfl
    | some term =>
      rw [(canonical term rfl).normalized_nil_some]
      exact frames term rfl
  · exact sort_normalized_of_filled filled

end Variables

end Term

theorem TermSort.accepts_trans {first second third : TermSort}
    (accepted : first.accepts second = true) (accepted' : second.accepts third = true) :
    first.accepts third = true := by
  simp only [TermSort.accepts, Bool.or_eq_true, beq_iff_eq] at *
  rcases accepted with rfl | rfl
  · exact accepted'
  · exact .inr rfl

namespace Subst

variable {s other : Subst} {v w : Variable} {term : Term}

private theorem mem_vars_fold_algebra (s : Subst) (term : Term) :
    v ∈ (term.fold s.algebra).vars ↔ ∃ w ∈ term.vars, v ∈ (s.image w).vars := by
  induction term using Term.induct with
  | var w => simp [algebra]
  | app label sort args ih =>
    rw [Term.fold_app]
    simp only [algebra, Term.mem_vars_app, List.mem_map]
    constructor
    · rintro ⟨_, ⟨arg, member, rfl⟩, occurs⟩
      obtain ⟨w, inside, occurs⟩ := (ih arg member).mp occurs
      exact ⟨w, ⟨arg, member, inside⟩, occurs⟩
    · rintro ⟨w, ⟨arg, member, inside⟩, occurs⟩
      exact ⟨_, ⟨arg, member, rfl⟩, (ih arg member).mpr ⟨w, inside, occurs⟩⟩
  | token sort value => simp [algebra]
  | collection kind entries frame ihEntries ihFrame =>
    rw [Term.fold_collection]
    simp only [algebra, Term.mem_vars_normalized, Term.mem_vars_collection, Term.occursIn,
      List.mem_map, Option.mem_map]
    constructor
    · rintro (⟨_, ⟨entry, member, rfl⟩, _, inside, occurs⟩ | ⟨_, ⟨rest, member, rfl⟩, occurs⟩)
      · rw [Entry.parts_map] at inside
        obtain ⟨part, present, rfl⟩ := List.mem_map.mp inside
        obtain ⟨w, within, occurs⟩ := (ihEntries entry member part present).mp occurs
        exact ⟨w, .inl ⟨entry, member, part, present, within⟩, occurs⟩
      · obtain ⟨w, within, occurs⟩ := (ihFrame rest member).mp occurs
        exact ⟨w, .inr ⟨rest, member, within⟩, occurs⟩
    · rintro ⟨w, ⟨entry, member, part, inside, within⟩ | ⟨rest, member, within⟩, occurs⟩
      · refine .inl ⟨_, ⟨entry, member, rfl⟩, part.fold s.algebra, ?_, ?_⟩
        · rw [Entry.parts_map]
          exact List.mem_map_of_mem inside
        · exact (ihEntries entry member part inside).mpr ⟨w, within, occurs⟩
      · exact .inr ⟨_, ⟨rest, member, rfl⟩, (ihFrame rest member).mpr ⟨w, within, occurs⟩⟩

/-- The variables of an instance are those of the images of the variables. -/
theorem mem_vars_apply (s : Subst) (term : Term) :
    v ∈ (s.apply term).vars ↔ ∃ w ∈ term.vars, v ∈ (s.image w).vars := by
  by_cases empty : s.isEmpty = true
  · rw [apply, if_pos empty]
    simp [image_of_isEmpty empty]
  · rw [apply_eq_fold (by simpa using empty), mem_vars_fold_algebra]

theorem fold_algebra_congr (same : ∀ v ∈ term.vars, s.image v = other.image v) :
    term.fold s.algebra = term.fold other.algebra :=
  @Term.fold_congr _ s.algebra other.image term same

/-- Substitutions that agree on the variables of a term agree on the term. -/
theorem apply_congr (canonical : term.Canonical)
    (same : ∀ v ∈ term.vars, s.image v = other.image v) : s.apply term = other.apply term := by
  rw [apply_eq_fold_algebra s canonical, apply_eq_fold_algebra other canonical,
    fold_algebra_congr same]

theorem apply_eq_self (canonical : term.Canonical)
    (fixed : ∀ v ∈ term.vars, s.image v = .var v) : s.apply term = term := by
  rw [apply_eq_fold_algebra s canonical, fold_algebra_eq_self canonical fixed]

/-- Away from variables an instance has the sort of the term. -/
theorem sort_apply (canonical : term.Canonical) (inner : term.var? = none) :
    (s.apply term).sort = term.sort := by
  rw [apply_eq_fold_algebra s canonical]
  cases canonical with
  | var v => cases inner
  | app label sort parts => rw [Term.fold_app]; rfl
  | token sort value => rfl
  | collection parts rest arranged =>
    rename_i kind entries frame
    obtain ⟨_, _, bare⟩ := Term.normalized_eq_self_iff.mp arranged
    rw [Term.fold_collection]
    by_cases filled : entries = []
    · rw [bare filled, filled]
      exact congrArg Term.sort (Term.normalized_nil_none kind)
    · exact Term.sort_normalized_of_filled (by simpa using filled)

/-- An instance of a collection is a collection of its kind. -/
theorem kind?_apply {kind : Kind} {entries : List (Entry Term)} {frame : Option Term}
    (canonical : (Term.collection kind entries frame).Canonical) :
    (s.apply (.collection kind entries frame)).kind? = some kind := by
  obtain ⟨_, _, bare⟩ := Term.normalized_eq_self_iff.mp canonical.normalized_eq
  rw [apply_collection_eq s canonical]
  by_cases filled : entries = []
  · rw [bare filled, filled]
    exact congrArg Term.kind? (Term.normalized_nil_none kind)
  · exact Term.kind?_normalized_of_filled (by simpa using filled)

/-- Whether a term is a collection does not change, unless it is a variable. -/
theorem kind?_apply_of_ne_var (canonical : term.Canonical) (notVar : ∀ v, term ≠ .var v) :
    (s.apply term).kind? = term.kind? := by
  cases term with
  | var v => exact absurd rfl (notVar v)
  | app label sort args =>
    rw [apply_app_eq]
    rfl
  | token sort value => rw [apply_token_eq]
  | collection kind entries frame => exact kind?_apply canonical

/-- Each variable is bound to a term of a sort that its own accepts. -/
def Sorted (s : Subst) : Prop :=
  ∀ v term, s.get? v = some term → v.sort.accepts term.sort = true

theorem Sorted.image (sorted : s.Sorted) (v : Variable) :
    v.sort.accepts (s.image v).sort = true := by
  cases bound : s.get? v with
  | none =>
    rw [Subst.image, bound]
    exact TermSort.accepts_self v.sort
  | some term => simpa [Subst.image, bound] using sorted v term bound

theorem Sorted.apply (sorted : s.Sorted) (canonical : term.Canonical) :
    term.sort.accepts (s.apply term).sort = true := by
  cases inner : term.var? with
  | none => rw [sort_apply canonical inner]; exact TermSort.accepts_self _
  | some v =>
    cases term with
    | var w =>
      rw [apply_var_eq]
      exact sorted.image w
    | _ => cases inner

section Composition

private theorem get?_foldl_insert (entries : List (Variable × Term)) (all : Subst) (v : Variable) :
    (entries.foldl (fun all (v, term) => if all.contains v then all else all.insert v term)
        all).get? v = (all.get? v).or (Assoc.find v entries) := by
  induction entries generalizing all with
  | nil => simp [Assoc.find]
  | cons entry rest ih =>
    obtain ⟨w, term⟩ := entry
    rw [List.foldl_cons, ih, Assoc.find]
    by_cases same : w = v
    · subst same
      cases bound : all.get? w <;> simp [Assoc.contains, bound, Assoc.get?_insert]
    · have differ : v ≠ w := fun eq => same eq.symm
      cases present : all.contains w <;> simp [present, Assoc.get?_insert, differ, same]

theorem get?_compose (s other : Subst) (v : Variable) :
    (s.compose other).get? v = ((s.get? v).map other.apply).or (other.get? v) := by
  rw [compose, get?_foldl_insert, Assoc.get?_mapValues]
  rfl

theorem image_compose (s other : Subst) (v : Variable) :
    (s.compose other).image v = other.apply (s.image v) := by
  rw [image, get?_compose, image]
  cases bound : s.get? v with
  | some term => rfl
  | none =>
    rw [Option.getD_none, apply_var_eq]
    rfl

theorem get?_single (v w : Variable) (term : Term) :
    (single v term).get? w = if w = v then some term else none :=
  Assoc.get?_insert _ _ _ _

theorem eq_of_get?_single {image : Term} (found : (single v term).get? w = some image) :
    w = v ∧ image = term := by
  rw [get?_single] at found
  split at found
  · next same => exact ⟨same, (Option.some.inj found).symm⟩
  · cases found

theorem image_single (v w : Variable) (term : Term) :
    (single v term).image w = if w = v then term else .var w := by
  rw [image, get?_single]
  split <;> rfl

/-- Where a variable is replaced, the variables of what replaces it come in for it. -/
theorem mem_vars_apply_single {value : Term} : w ∈ ((single v value).apply term).vars ↔
    (w ∈ term.vars ∧ w ≠ v) ∨ (v ∈ term.vars ∧ w ∈ value.vars) := by
  rw [mem_vars_apply]
  constructor
  · intro ⟨u, inside, occurs⟩
    rw [image_single] at occurs
    split at occurs
    · next same => exact .inr ⟨same ▸ inside, occurs⟩
    · next other =>
      obtain rfl := List.mem_singleton.mp occurs
      exact .inl ⟨inside, other⟩
  · rintro (⟨inside, other⟩ | ⟨inside, occurs⟩)
    · exact ⟨w, inside, by rw [image_single, if_neg other]; exact List.mem_singleton_self w⟩
    · exact ⟨v, inside, by rwa [image_single, if_pos rfl]⟩

theorem apply_single_eq_self {value : Term} (canonical : term.Canonical) (absent : v ∉ term.vars) :
    (single v value).apply term = term :=
  apply_eq_self canonical fun w occurs => by
    rw [image_single, if_neg fun same : w = v => absent (same ▸ occurs)]

theorem Canonical.single (canonical : term.Canonical) : (single v term).Canonical := by
  intro w bound found
  rw [(eq_of_get?_single found).2]
  exact canonical

theorem Canonical.compose (canonical : s.Canonical) (canonical' : other.Canonical) :
    (s.compose other).Canonical := by
  intro v bound found
  rw [get?_compose] at found
  cases left : s.get? v with
  | some term =>
    rw [left] at found
    cases found
    exact canonical'.apply (canonical v term left)
  | none =>
    rw [left] at found
    exact canonical' v bound found

theorem Sorted.single (accepted : v.sort.accepts term.sort = true) : (single v term).Sorted := by
  intro w bound found
  obtain ⟨rfl, rfl⟩ := eq_of_get?_single found
  exact accepted

theorem Sorted.compose (sorted : s.Sorted) (sorted' : other.Sorted) (canonical : s.Canonical) :
    (s.compose other).Sorted := by
  intro v bound found
  rw [get?_compose] at found
  cases left : s.get? v with
  | some term =>
    rw [left] at found
    cases found
    exact TermSort.accepts_trans (sorted v term left) (sorted'.apply (canonical v term left))
  | none =>
    rw [left] at found
    exact sorted' v bound found

/-- A composition is sequential application. -/
theorem apply_compose (canonical : s.Canonical) (canonical' : other.Canonical)
    (whole : term.Canonical) : (s.compose other).apply term = other.apply (s.apply term) := by
  rw [apply_eq_fold_algebra _ whole, apply_eq_fold_algebra other (canonical.apply whole),
    canonical'.normalizing.fold_apply]
  refine Term.fold_congr fun v _ => ?_
  rw [← apply_eq_fold_algebra other (canonical.image v)]
  exact image_compose s other v

end Composition

section Idempotence

/-- The images mention no variable that is bound. -/
def Idempotent (s : Subst) : Prop :=
  ∀ v w, w ∈ (s.image v).vars → s.get? w = none

theorem Idempotent.get?_of_mem_apply (idempotent : s.Idempotent) (occurs : v ∈ (s.apply term).vars) :
    s.get? v = none := by
  obtain ⟨w, _, inside⟩ := (mem_vars_apply s term).mp occurs
  exact idempotent w v inside

theorem image_of_get? (found : s.get? v = some term) : s.image v = term := by
  rw [image, found, Option.getD_some]

theorem image_of_get?_none (free : s.get? v = none) : s.image v = .var v := by
  rw [image, free]
  rfl

theorem Idempotent.apply_image (idempotent : s.Idempotent) (canonical : s.Canonical)
    (v : Variable) : s.apply (s.image v) = s.image v :=
  apply_eq_self (canonical.image v) fun w inside => image_of_get?_none (idempotent v w inside)

/-- Applying an idempotent substitution twice is applying it once. -/
theorem Idempotent.apply_apply (idempotent : s.Idempotent) (canonical : s.Canonical)
    (whole : term.Canonical) : s.apply (s.apply term) = s.apply term :=
  apply_eq_self (canonical.apply whole) fun _ occurs =>
    image_of_get?_none (idempotent.get?_of_mem_apply occurs)

/-- Eliminating a variable keeps a substitution idempotent, if the term that takes its place
mentions neither the variable nor one that is bound. -/
theorem Idempotent.compose_single (idempotent : s.Idempotent)
    (unbound : ∀ w ∈ term.vars, s.get? w = none) (absent : v ∉ term.vars) :
    (s.compose (single v term)).Idempotent := by
  intro u w occurs
  have free : s.get? w = none ∧ w ≠ v := by
    rw [image_compose] at occurs
    rcases mem_vars_apply_single.mp occurs with ⟨inside, differ⟩ | ⟨_, occurs⟩
    · exact ⟨idempotent u w inside, differ⟩
    · exact ⟨unbound w occurs, fun same => absent (same ▸ occurs)⟩
  rw [get?_compose, free.1, get?_single, if_neg free.2]
  rfl

theorem idempotent_empty : Idempotent Assoc.empty := by
  intro v w _
  rfl

end Idempotence

section Elimination

variable {algebra : Term.Algebra Term}

theorem absorbs_single (solved : algebra.var v = term.fold algebra) :
    algebra.Absorbs (single v term) := by
  intro w
  rw [image_single]
  split
  · next same => rw [same, solved]
  · rfl

/-- A fold absorbs an elimination exactly when it solves the equation that was eliminated. -/
theorem absorbs_compose_single_iff (normalizing : algebra.Normalizing) (free : s.get? v = none) :
    algebra.Absorbs (s.compose (single v term)) ↔
      algebra.Absorbs s ∧ algebra.var v = term.fold algebra := by
  have split (solved : algebra.var v = term.fold algebra) (w : Variable) :
      ((s.compose (single v term)).image w).fold algebra = (s.image w).fold algebra := by
    rw [image_compose, (absorbs_single solved).fold_apply normalizing]
  constructor
  · intro absorbs
    have here := absorbs v
    rw [image_compose, image_of_get?_none free, apply_var_eq, image_single, if_pos rfl] at here
    exact ⟨fun w => (split here.symm w).symm.trans (absorbs w), here.symm⟩
  · rintro ⟨absorbs, solved⟩ w
    rw [split solved, absorbs w]

end Elimination

end Subst

end Reach
