import Reach.Proofs.Subterm

/-!
Classes of terms that rewriting does not leave. A discipline says what it asks of the variables, the
applications and the entries of a term, and which sorts may stand in the place of a sort. The terms that
obey it are closed under substitution, whether or not the collections in them are in canonical form.
-/

namespace Reach

open Term

/-- What is asked of each symbol of a term, and of the sort of what takes the place of a term. -/
structure Discipline where
  var : Variable → Prop
  app : String → TermSort → List Term → Prop
  entry : Kind → Entry Term → Prop
  fits : TermSort → TermSort → Prop
  fits_of_accepts : ∀ {expected found}, expected.accepts found = true → fits expected found
  fits_trans : ∀ {first second third}, fits first second → fits second third → fits first third
  /-- An application does not look at its arguments further than to their sorts. -/
  app_map : ∀ {label sort args} (f : Term → Term), app label sort args →
    (∀ arg ∈ args, fits arg.sort (f arg).sort) → app label sort (args.map f)
  /-- An entry is only asked for its shape. -/
  entry_map : ∀ {kind item} (f : Term → Term), entry kind item → entry kind (item.map f)

namespace Discipline

variable {k : Discipline} {kind : Kind} {entries kept : List (Entry Term)} {frame : Option Term}
  {term rest : Term} {sort : TermSort} {v : Variable} {s : Subst}

private theorem fits_self (k : Discipline) (sort : TermSort) : k.fits sort sort :=
  k.fits_of_accepts (TermSort.accepts_self sort)

/-- What is asked of the outermost symbol of a term. -/
def allows (k : Discipline) : Term → Prop
  | .var v => k.var v
  | .app label sort args => k.app label sort args
  | .token _ _ => True
  | .collection kind entries frame =>
    (∀ entry ∈ entries, k.entry kind entry) ∧ ∀ rest ∈ frame, k.fits kind.sort rest.sort

/-- A term of the class. -/
abbrev Contains (k : Discipline) : Term → Prop :=
  Everywhere k.allows

/-- A term of the class that may stand where one of the sort is expected. -/
structure Has (k : Discipline) (sort : TermSort) (term : Term) : Prop where
  contains : k.Contains term
  fits : k.fits sort term.sort

/-- The entries and the frame of a collection of the class. -/
structure Fills (k : Discipline) (kind : Kind) (entries : List (Entry Term)) (frame : Option Term) :
    Prop where
  shapes : ∀ entry ∈ entries, k.entry kind entry
  parts : ∀ entry ∈ entries, ∀ part ∈ entry.parts, k.Contains part
  last : ∀ rest ∈ frame, k.Has kind.sort rest

theorem has_self (contains : k.Contains term) : k.Has term.sort term :=
  ⟨contains, k.fits_self term.sort⟩

theorem has_var (allowed : k.var v) : k.Has v.sort (.var v) :=
  has_self (Everywhere.var_iff.mpr allowed)

theorem has_token (k : Discipline) (sort : TermSort) (value : String) : k.Has sort (.token sort value) :=
  has_self (Everywhere.token_iff.mpr trivial)

theorem Has.mono {wider : TermSort} (has : k.Has sort term) (fits : k.fits wider sort) :
    k.Has wider term :=
  ⟨has.contains, k.fits_trans fits has.fits⟩

/-- The variables of a term of the class are allowed. -/
theorem allowed_of_mem (contains : k.Contains term) (occurs : v ∈ term.vars) : k.var v := by
  have within : Within { var := k.var } term := contains.mono fun node here => by
    cases node with
    | var w => exact here
    | _ => simp [Fragment.allows]
  exact within.var_of_mem occurs

section Collections

theorem contains_collection_iff :
    k.Contains (.collection kind entries frame) ↔ k.Fills kind entries frame := by
  rw [Contains, Everywhere.collection_iff]
  constructor
  · rintro ⟨⟨shapes, fits⟩, parts, last⟩
    exact ⟨shapes, parts, fun rest member => ⟨last rest member, fits rest member⟩⟩
  · rintro ⟨shapes, parts, last⟩
    exact ⟨⟨shapes, fun rest member => (last rest member).fits⟩, parts,
      fun rest member => (last rest member).contains⟩

theorem Fills.subset (fills : k.Fills kind entries frame) (subset : ∀ entry ∈ kept, entry ∈ entries) :
    k.Fills kind kept frame where
  shapes entry member := fills.shapes entry (subset entry member)
  parts entry member := fills.parts entry (subset entry member)
  last := fills.last

theorem Fills.withFrame {other : Option Term} (fills : k.Fills kind entries frame)
    (last : ∀ rest ∈ other, k.Has kind.sort rest) : k.Fills kind entries other :=
  ⟨fills.shapes, fills.parts, last⟩

theorem Fills.append {more : List (Entry Term)} {other : Option Term} (fills : k.Fills kind entries other)
    (next : k.Fills kind more frame) : k.Fills kind (entries ++ more) frame where
  shapes := List.forall_mem_append.mpr ⟨fills.shapes, next.shapes⟩
  parts := List.forall_mem_append.mpr ⟨fills.parts, next.parts⟩
  last := next.last

/-- What is nested in the frame fills the collection around it. -/
theorem Fills.splice (fills : k.Fills kind entries frame) :
    k.Fills kind (Term.splice kind entries frame).1 (Term.splice kind entries frame).2 := by
  cases frame with
  | none => exact fills
  | some term =>
    induction term using Term.induct generalizing entries with
    | collection inner more frame ihEntries ihFrame =>
      by_cases same : inner = kind
      · subst same
        have nested := fills.append (contains_collection_iff.mp (fills.last _ rfl).contains)
        rw [splice_some, contents_collection]
        cases frame with
        | none => exact nested
        | some rest =>
          have deeper := ihFrame rest rfl nested
          rw [splice_some] at deeper ⊢
          rw [List.append_assoc] at deeper
          exact deeper
      · have other : (collection inner more frame).kind? ≠ some kind := fun eq =>
          same (Option.some.inj eq)
        rw [splice_some, contents_of_kind other, List.append_nil]
        exact fills
    | _ =>
      rw [splice_some, contents_of_kind (by nofun), List.append_nil]
      exact fills

theorem Fills.normalized (fills : k.Fills kind entries frame) :
    k.Has kind.sort (Term.normalized kind entries frame) := by
  have spliced := fills.splice
  by_cases bare : (Term.splice kind entries frame).1 = []
  · rw [normalized_eq_getD bare]
    cases shape : (Term.splice kind entries frame).2 with
    | none =>
      have empty : k.Contains (Term.empty kind) := contains_collection_iff.mpr ⟨nofun, nofun, nofun⟩
      exact has_self empty
    | some rest => exact spliced.last rest shape
  · rw [normalized_eq_collection bare]
    refine has_self (contains_collection_iff.mpr (spliced.subset fun entry member => ?_))
    exact mem_arrange.mp member

private theorem fills_map {f : Term → Term} (fills : k.Fills kind entries frame)
    (parts : ∀ entry ∈ entries, ∀ part ∈ entry.parts, k.Contains (f part))
    (last : ∀ rest ∈ frame, k.Has rest.sort (f rest)) :
    k.Fills kind (entries.map (Entry.map f)) (frame.map f) where
  shapes entry member := by
    obtain ⟨source, present, rfl⟩ := List.mem_map.mp member
    exact k.entry_map f (fills.shapes source present)
  parts entry member part inside := by
    obtain ⟨source, present, piece, within, rfl⟩ := Entry.mem_parts_map member inside
    exact parts source present piece within
  last image member := by
    obtain ⟨source, present, rfl⟩ := Option.map_eq_some_iff.mp member
    exact (last source present).mono (fills.last source present).fits

end Collections

/-- A fold stays in the class, and keeps sorts, if it does so at variables and applications. -/
theorem has_fold {algebra : Algebra Term} (rebuilds : algebra.collection = .normalized)
    (token : algebra.token = .token) (var : ∀ v, k.var v → k.Has v.sort (algebra.var v))
    (app : ∀ label sort args, k.app label sort args → (∀ arg ∈ args, k.Contains arg) →
      k.Has sort (algebra.app label sort args))
    (contains : k.Contains term) : k.Has term.sort (term.fold algebra) := by
  induction term using Term.induct with
  | var v => exact var v contains.here
  | token sort value =>
    rw [fold_token, token]
    exact has_self contains
  | app label sort args ih =>
    obtain ⟨here, inner⟩ := Everywhere.app_iff.mp contains
    have each (arg : Term) (member : arg ∈ args) := ih arg member (inner arg member)
    rw [fold_app]
    refine app label sort _ (k.app_map _ here fun arg member => (each arg member).fits) ?_
    intro image member
    obtain ⟨arg, inside, rfl⟩ := List.mem_map.mp member
    exact (each arg inside).contains
  | collection kind entries frame ihEntries ihFrame =>
    have fills := contains_collection_iff.mp contains
    rw [fold_collection, rebuilds]
    refine (fills_map fills (fun entry member part inside => ?_) fun rest member => ?_).normalized
    · exact (ihEntries entry member part inside (fills.parts entry member part inside)).contains
    · exact ihFrame rest member (fills.last rest member).contains

section Substitutions

/-- The variables that the substitution binds are allowed, and what it binds them to is of the class and
may stand for them. -/
def Binds (k : Discipline) (s : Subst) : Prop :=
  ∀ v term, s.get? v = some term → k.var v ∧ k.Has v.sort term

theorem binds_empty : k.Binds .empty :=
  nofun

theorem Binds.insert (binds : k.Binds s) (allowed : k.var v) (has : k.Has v.sort term) :
    k.Binds (s.insert v term) := by
  intro w image bound
  rw [Assoc.get?_insert] at bound
  split at bound
  · next same =>
    cases bound
    exact same ▸ ⟨allowed, has⟩
  · exact binds w image bound

theorem binds_single (allowed : k.var v) (has : k.Has v.sort term) : k.Binds (.single v term) :=
  binds_empty.insert allowed has

theorem Binds.image (binds : k.Binds s) (allowed : k.var v) : k.Has v.sort (s.image v) := by
  cases bound : s.get? v with
  | none =>
    rw [Subst.image_of_get?_none bound]
    exact has_var allowed
  | some term =>
    rw [Subst.image, bound]
    exact (binds v term bound).2

theorem Binds.apply (binds : k.Binds s) (contains : k.Contains term) : k.Has term.sort (s.apply term) := by
  by_cases empty : s.isEmpty = true
  · rw [Subst.apply, if_pos empty]
    exact has_self contains
  · rw [Subst.apply_eq_fold (by simpa using empty)]
    refine has_fold rfl rfl (fun v => binds.image) (fun label sort args here inner => ?_) contains
    exact has_self (Everywhere.app_iff.mpr ⟨here, inner⟩)

theorem Binds.compose {other : Subst} (binds : k.Binds s) (later : k.Binds other) :
    k.Binds (s.compose other) := by
  intro v image bound
  rw [Subst.get?_compose] at bound
  cases earlier : s.get? v with
  | some inner =>
    rw [earlier] at bound
    cases bound
    obtain ⟨allowed, has⟩ := binds v inner earlier
    exact ⟨allowed, (later.apply has.contains).mono has.fits⟩
  | none =>
    rw [earlier] at bound
    exact later v image bound

theorem Binds.restrict (binds : k.Binds s) (keep : Variable → Bool) : k.Binds (s.restrict keep) := by
  intro v term bound
  rw [Assoc.get?_restrict] at bound
  split at bound
  · exact binds v term bound
  · cases bound

end Substitutions

end Discipline

end Reach
