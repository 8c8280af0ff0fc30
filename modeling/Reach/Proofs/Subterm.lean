import Reach.Proofs.Substitution
import Reach.Signature.Check

/-!
Properties of every subterm. A property that looks at one symbol at a time is given by a `Fragment`,
the symbols that it allows; what is built of allowed symbols stays so under substitution.
-/

namespace Reach.Term

/-- A property holds of the term and of all its subterms. -/
inductive Everywhere (holds : Term → Prop) : Term → Prop
  | intro {term : Term} (here : holds term)
      (children : ∀ child ∈ term.children, Everywhere holds child) : Everywhere holds term

section Children

variable {kind : Kind} {entries : List (Entry Term)} {frame : Option Term}

theorem mem_children_collection {child : Term} :
    child ∈ (collection kind entries frame).children ↔
      (∃ entry ∈ entries, child ∈ entry.parts) ∨ child ∈ frame := by
  rw [children, List.mem_append, List.mem_flatMap, Option.mem_toList, Option.mem_def]

end Children

namespace Everywhere

variable {holds holds' : Term → Prop} {term : Term} {kind : Kind} {entries : List (Entry Term)}
  {frame : Option Term}

theorem here (everywhere : Everywhere holds term) : holds term := by
  cases everywhere with
  | intro here children => exact here

theorem children (everywhere : Everywhere holds term) :
    ∀ child ∈ term.children, Everywhere holds child := by
  cases everywhere with
  | intro here children => exact children

theorem var_iff {v : Variable} : Everywhere holds (var v) ↔ holds (var v) :=
  ⟨here, fun holds => .intro holds nofun⟩

theorem token_iff {sort : TermSort} {value : String} :
    Everywhere holds (token sort value) ↔ holds (token sort value) :=
  ⟨here, fun holds => .intro holds nofun⟩

theorem app_iff {label : String} {sort : TermSort} {args : List Term} :
    Everywhere holds (app label sort args) ↔
      holds (app label sort args) ∧ ∀ arg ∈ args, Everywhere holds arg :=
  ⟨fun everywhere => ⟨everywhere.here, everywhere.children⟩, fun ⟨here, below⟩ => .intro here below⟩

theorem collection_iff :
    Everywhere holds (collection kind entries frame) ↔
      holds (collection kind entries frame) ∧
        (∀ entry ∈ entries, ∀ part ∈ entry.parts, Everywhere holds part) ∧
        ∀ rest ∈ frame, Everywhere holds rest := by
  constructor
  · intro everywhere
    refine ⟨everywhere.here, fun entry member part inside => ?_, fun rest member => ?_⟩
    · exact everywhere.children part (mem_children_collection.mpr (.inl ⟨entry, member, inside⟩))
    · exact everywhere.children rest (mem_children_collection.mpr (.inr member))
  · rintro ⟨here, parts, last⟩
    refine .intro here fun child member => ?_
    rcases mem_children_collection.mp member with ⟨entry, present, inside⟩ | member
    · exact parts entry present child inside
    · exact last child member

theorem of_forall (all : ∀ term, holds term) : Everywhere holds term := by
  induction term using induct with
  | var v => exact var_iff.mpr (all _)
  | token sort value => exact token_iff.mpr (all _)
  | app label sort args ih => exact app_iff.mpr ⟨all _, ih⟩
  | collection kind entries frame ihEntries ihFrame =>
    exact collection_iff.mpr ⟨all _, ihEntries, ihFrame⟩

theorem mono (stronger : ∀ term, holds term → holds' term) (everywhere : Everywhere holds term) :
    Everywhere holds' term := by
  induction everywhere with
  | intro here _ ih => exact .intro (stronger _ here) ih

theorem and (first : Everywhere holds term) (second : Everywhere holds' term) :
    Everywhere (fun term => holds term ∧ holds' term) term := by
  induction first with
  | intro here _ ih =>
    exact .intro ⟨here, second.here⟩ fun child member => ih child member (second.children child member)

theorem splice (kind : Kind)
    (parts : ∀ entry ∈ entries, ∀ part ∈ entry.parts, Everywhere holds part)
    (last : ∀ rest ∈ frame, Everywhere holds rest) :
    (∀ entry ∈ (Term.splice kind entries frame).1, ∀ part ∈ entry.parts, Everywhere holds part) ∧
      ∀ rest ∈ (Term.splice kind entries frame).2, Everywhere holds rest := by
  cases frame with
  | none => exact ⟨parts, last⟩
  | some term =>
    have whole := last term rfl
    clear last
    induction term using induct generalizing entries with
    | collection inner more frame ihEntries ihFrame =>
      by_cases same : inner = kind
      · subst same
        obtain ⟨_, moreParts, moreLast⟩ := collection_iff.mp whole
        have all : ∀ entry ∈ entries ++ more, ∀ part ∈ entry.parts, Everywhere holds part :=
          List.forall_mem_append.mpr ⟨parts, moreParts⟩
        rw [splice_some, contents_collection]
        cases frame with
        | none => exact ⟨all, nofun⟩
        | some rest =>
          have deeper := ihFrame rest rfl all (moreLast rest rfl)
          rw [splice_some] at deeper ⊢
          rw [List.append_assoc] at deeper
          exact deeper
      · have other : (collection inner more frame).kind? ≠ some kind := fun eq =>
          same (Option.some.inj eq)
        rw [splice_some, contents_of_kind other, List.append_nil]
        exact ⟨parts, fun rest member => by cases member; exact whole⟩
    | _ =>
      rw [splice_some, contents_of_kind (by nofun), List.append_nil]
      exact ⟨parts, fun rest member => by cases member; exact whole⟩

/-- What holds of the parts of a collection holds everywhere in its canonical form, if it holds of
the collections that can arise. -/
theorem normalized (parts : ∀ entry ∈ entries, ∀ part ∈ entry.parts, Everywhere holds part)
    (last : ∀ rest ∈ frame, Everywhere holds rest)
    (here : ∀ kept, (∀ entry ∈ kept, entry ∈ (Term.splice kind entries frame).1) →
      holds (.collection kind kept (Term.splice kind entries frame).2)) :
    Everywhere holds (Term.normalized kind entries frame) := by
  obtain ⟨all, left⟩ := splice kind parts last
  by_cases bare : (Term.splice kind entries frame).1 = []
  · rw [normalized_eq_getD bare]
    cases shape : (Term.splice kind entries frame).2 with
    | none => exact collection_iff.mpr ⟨shape ▸ here [] nofun, nofun, nofun⟩
    | some rest => exact left rest shape
  · rw [normalized_eq_collection bare]
    refine collection_iff.mpr ⟨here _ fun entry member => mem_arrange.mp member, ?_, left⟩
    exact fun entry member => all entry (mem_arrange.mp member)

/-- What holds of what a collection is spliced to holds of its parts, if it holds of collections with
some of the entries. -/
theorem of_splice (kind : Kind)
    (inherits : ∀ more frame', (∀ entry ∈ more, entry ∈ (Term.splice kind entries frame).1) →
      holds (.collection kind more frame'))
    (parts : ∀ entry ∈ (Term.splice kind entries frame).1, ∀ part ∈ entry.parts,
      Everywhere holds part)
    (last : ∀ rest ∈ (Term.splice kind entries frame).2, Everywhere holds rest) :
    (∀ entry ∈ entries, ∀ part ∈ entry.parts, Everywhere holds part) ∧
      ∀ rest ∈ frame, Everywhere holds rest := by
  cases frame with
  | none => exact ⟨parts, last⟩
  | some term =>
    suffices holding : (∀ entry ∈ entries, ∀ part ∈ entry.parts, Everywhere holds part) ∧
        Everywhere holds term from ⟨holding.1, fun rest same => by cases same; exact holding.2⟩
    induction term using induct generalizing entries with
    | collection inner more frame ihEntries ihFrame =>
      by_cases same : inner = kind
      · subst same
        rw [splice_some, contents_collection] at parts last
        simp only [splice_some, contents_collection] at inherits
        have inner : holds (.collection inner more frame) := inherits more frame fun entry member =>
          List.mem_append_right _ (mem_splice_of_mem member)
        cases frame with
        | none =>
          obtain ⟨here, moreParts⟩ := List.forall_mem_append.mp parts
          exact ⟨here, collection_iff.mpr ⟨inner, moreParts, nofun⟩⟩
        | some rest =>
          have deeper := @ihFrame rest rfl (entries ++ more)
          rw [splice_some, List.append_assoc] at deeper
          rw [splice_some] at parts last inherits
          obtain ⟨all, inside⟩ := deeper inherits parts last
          obtain ⟨here, moreParts⟩ := List.forall_mem_append.mp all
          refine ⟨here, collection_iff.mpr ⟨inner, moreParts, fun last same => ?_⟩⟩
          cases same
          exact inside
      · have other : (collection inner more frame).kind? ≠ some kind := fun eq =>
          same (Option.some.inj eq)
        rw [splice_some, contents_of_kind other, List.append_nil] at parts last
        exact ⟨parts, last _ rfl⟩
    | _ =>
      rw [splice_some, contents_of_kind (by nofun), List.append_nil] at parts last
      exact ⟨parts, last _ rfl⟩

/-- What holds everywhere in the canonical form of a collection holds in the parts of the collection,
if it holds of collections with some of the entries. -/
theorem of_normalized
    (inherits : ∀ more frame', (∀ entry ∈ more, entry ∈ (Term.splice kind entries frame).1) →
      holds (.collection kind more frame'))
    (whole : Everywhere holds (Term.normalized kind entries frame)) :
    (∀ entry ∈ entries, ∀ part ∈ entry.parts, Everywhere holds part) ∧
      ∀ rest ∈ frame, Everywhere holds rest := by
  by_cases bare : (Term.splice kind entries frame).1 = []
  · rw [normalized_eq_getD bare] at whole
    refine of_splice kind inherits (fun entry member => ?_) fun rest left => ?_
    · rw [bare] at member
      cases member
    · rw [left] at whole
      exact whole
  · rw [normalized_eq_collection bare] at whole
    obtain ⟨_, parts, last⟩ := collection_iff.mp whole
    exact of_splice kind inherits (fun entry member => parts entry (mem_arrange.mpr member)) last

theorem normalized_iff (trivially : ∀ kind entries frame, holds (.collection kind entries frame)) :
    Everywhere holds (Term.normalized kind entries frame) ↔
      (∀ entry ∈ entries, ∀ part ∈ entry.parts, Everywhere holds part) ∧
        ∀ rest ∈ frame, Everywhere holds rest :=
  ⟨of_normalized fun _ _ _ => trivially _ _ _,
    fun ⟨parts, last⟩ => .normalized parts last fun _ _ => trivially _ _ _⟩

end Everywhere

/-- The subterms of a canonical term are canonical. -/
theorem Canonical.everywhere {term : Term} (canonical : term.Canonical) :
    term.Everywhere Canonical := by
  induction term using induct with
  | var v => exact Everywhere.var_iff.mpr canonical
  | token sort text => exact Everywhere.token_iff.mpr canonical
  | app label sort args ih =>
    exact Everywhere.app_iff.mpr ⟨canonical, fun arg member => ih arg member (canonical.of_app arg member)⟩
  | collection kind entries frame ihEntries ihFrame =>
    refine Everywhere.collection_iff.mpr ⟨canonical, fun entry member part inside => ?_,
      fun rest member => ihFrame rest member (canonical.of_frame rest member)⟩
    exact ihEntries entry member part inside (canonical.of_entry entry member part inside)

/-- The algebra leaves the application at the root alone. -/
def Algebra.Leaves (algebra : Algebra Term) : Term → Prop
  | .app label sort args => algebra.app label sort args = .app label sort args
  | _ => True

/-- A canonical term stays as it is where its variables, tokens and applications are left alone. -/
theorem fold_eq_self {algebra : Algebra Term} {term : Term} (canonical : term.Canonical)
    (rebuilds : algebra.collection = .normalized) (token : algebra.token = .token)
    (vars : ∀ v ∈ term.vars, algebra.var v = .var v) (apps : term.Everywhere algebra.Leaves) :
    term.fold algebra = term := by
  induction canonical with
  | var v => exact vars v (by simp)
  | token sort value => rw [fold_token, token]
  | app label sort parts ih =>
    rename_i args
    obtain ⟨here, inner⟩ := Everywhere.app_iff.mp apps
    have same : args.map (fold algebra) = args := by
      refine (List.map_congr_left fun arg member => ?_).trans (List.map_id args)
      exact ih arg member (fun v occurs => vars v (mem_vars_app.mpr ⟨arg, member, occurs⟩))
        (inner arg member)
    rw [fold_app, same]
    exact here
  | collection parts rest arranged ihEntries ihFrame =>
    rename_i kind entries frame
    obtain ⟨_, inner, last⟩ := Everywhere.collection_iff.mp apps
    have sameEntries : entries.map (Entry.map (fold algebra)) = entries := by
      refine (List.map_congr_left fun entry member => ?_).trans (List.map_id entries)
      refine Entry.map_eq_self fun part inside => ihEntries entry member part inside
        (fun v occurs => vars v ?_) (inner entry member part inside)
      exact mem_vars_collection.mpr (.inl ⟨entry, member, part, inside, occurs⟩)
    have sameFrame : frame.map (fold algebra) = frame := by
      refine (Option.map_congr fun rest member => ?_).trans Option.map_id'
      exact ihFrame rest member (fun v occurs =>
        vars v (mem_vars_collection.mpr (.inr ⟨rest, member, occurs⟩))) (last rest member)
    rw [fold_collection, rebuilds, sameEntries, sameFrame]
    exact arranged

/-- The symbols that the terms of a sublanguage are built of. -/
structure Fragment where
  var : Variable → Prop := fun _ => True
  label : String → TermSort → Prop := fun _ _ => True
  token : TermSort → String → Prop := fun _ _ => True
  kind : Kind → Prop := fun _ => True

/-- Whether the outermost symbol of a term is allowed. -/
def Fragment.allows (fragment : Fragment) : Term → Prop
  | .var v => fragment.var v
  | .app label sort _ => fragment.label label sort
  | .token sort value => fragment.token sort value
  | .collection kind _ _ => fragment.kind kind

/-- Every symbol of a term is allowed. -/
abbrev Within (fragment : Fragment) : Term → Prop :=
  Everywhere fragment.allows

namespace Within

variable {fragment : Fragment} {term : Term} {kind : Kind} {entries : List (Entry Term)}
  {frame : Option Term} {s : Subst}

theorem normalized (allowed : fragment.kind kind)
    (parts : ∀ entry ∈ entries, ∀ part ∈ entry.parts, Within fragment part)
    (last : ∀ rest ∈ frame, Within fragment rest) :
    Within fragment (Term.normalized kind entries frame) :=
  Everywhere.normalized parts last fun _ _ => allowed

theorem var_of_mem (within : Within fragment term) {v : Variable} (occurs : v ∈ term.vars) :
    fragment.var v := by
  induction term using induct with
  | var w =>
    obtain rfl := List.mem_singleton.mp occurs
    exact within.here
  | app label sort args ih =>
    obtain ⟨arg, member, inside⟩ := mem_vars_app.mp occurs
    exact ih arg member ((Everywhere.app_iff.mp within).2 arg member) inside
  | token sort value => cases occurs
  | collection kind entries frame ihEntries ihFrame =>
    obtain ⟨_, parts, last⟩ := Everywhere.collection_iff.mp within
    rcases mem_vars_collection.mp occurs with
      ⟨entry, member, part, inside, occurs⟩ | ⟨rest, member, occurs⟩
    · exact ihEntries entry member part inside (parts entry member part inside) occurs
    · exact ihFrame rest member (last rest member) occurs

theorem of_vars {allowed : Variable → Prop} (each : ∀ v ∈ term.vars, allowed v) :
    Within { var := allowed } term := by
  induction term using induct with
  | var v => exact Everywhere.var_iff.mpr (each v (by simp))
  | app label sort args ih =>
    refine Everywhere.app_iff.mpr ⟨trivial, fun arg member => ih arg member fun v occurs => ?_⟩
    exact each v (mem_vars_app.mpr ⟨arg, member, occurs⟩)
  | token sort value => exact Everywhere.token_iff.mpr trivial
  | collection kind entries frame ihEntries ihFrame =>
    refine Everywhere.collection_iff.mpr ⟨trivial, fun entry member part inside => ?_,
      fun rest member => ihFrame rest member fun v occurs => ?_⟩
    · refine ihEntries entry member part inside fun v occurs => ?_
      exact each v (mem_vars_collection.mpr (.inl ⟨entry, member, part, inside, occurs⟩))
    · exact each v (mem_vars_collection.mpr (.inr ⟨rest, member, occurs⟩))

/-- Ground terms are those without variables. -/
theorem ground_iff : Within { var := fun _ => False } term ↔ term.ground = true := by
  rw [ground_iff_vars_eq_nil, List.eq_nil_iff_forall_not_mem]
  exact ⟨fun within v occurs => within.var_of_mem occurs, fun none => of_vars none⟩

/-- An instance is built of the symbols of the term and of its images. -/
theorem fold_algebra (within : Within { fragment with var := fun _ => True } term)
    (images : ∀ v ∈ term.vars, Within fragment (s.image v)) :
    Within fragment (term.fold s.algebra) := by
  induction term using induct with
  | var v => exact images v (by simp)
  | app label sort args ih =>
    obtain ⟨allowed, parts⟩ := Everywhere.app_iff.mp within
    rw [fold_app]
    refine Everywhere.app_iff.mpr ⟨allowed, fun image member => ?_⟩
    obtain ⟨arg, inside, rfl⟩ := List.mem_map.mp member
    exact ih arg inside (parts arg inside) fun v occurs =>
      images v (mem_vars_app.mpr ⟨arg, inside, occurs⟩)
  | token sort value => exact Everywhere.token_iff.mpr within.here
  | collection kind entries frame ihEntries ihFrame =>
    obtain ⟨allowed, parts, last⟩ := Everywhere.collection_iff.mp within
    rw [fold_collection]
    refine Within.normalized allowed (fun entry member part inside => ?_) fun rest member => ?_
    · obtain ⟨source, present, rfl⟩ := List.mem_map.mp member
      rw [Entry.parts_map] at inside
      obtain ⟨piece, inner, rfl⟩ := List.mem_map.mp inside
      refine ihEntries source present piece inner (parts source present piece inner) fun v occurs => ?_
      exact images v (mem_vars_collection.mpr (.inl ⟨source, present, piece, inner, occurs⟩))
    · obtain ⟨source, present, rfl⟩ := Option.map_eq_some_iff.mp member
      refine ihFrame source present (last source present) fun v occurs => ?_
      exact images v (mem_vars_collection.mpr (.inr ⟨source, present, occurs⟩))

theorem apply (within : Within fragment term)
    (images : ∀ v ∈ term.vars, Within fragment (s.image v)) : Within fragment (s.apply term) := by
  by_cases empty : s.isEmpty = true
  · rw [Subst.apply, if_pos empty]
    exact within
  · rw [Subst.apply_eq_fold (by simpa using empty)]
    refine fold_algebra (within.mono fun node allowed => ?_) images
    cases node with
    | var v => trivial
    | _ => exact allowed

end Within

section Size

variable {kind : Kind} {entries : List (Entry Term)} {rest term : Term}

theorem total_perm {first second : List Nat} (perm : first.Perm second) :
    total first = total second := by
  induction perm with
  | nil => rfl
  | cons number _ ih => rw [total_cons, total_cons, ih]
  | swap a b rest => simp only [total_cons]; omega
  | trans _ _ ih ih' => rw [ih, ih']

theorem le_total_of_mem {number : Nat} {numbers : List Nat} (member : number ∈ numbers) :
    number ≤ total numbers := by
  obtain ⟨before, after, rfl⟩ := List.append_of_mem member
  rw [total_append, total_cons]
  omega

theorem size_lt_of_mem_children {child : Term} (member : child ∈ term.children) :
    child.size < term.size := by
  have below := le_total_of_mem (List.mem_map_of_mem (f := size) member)
  cases term with
  | var v => cases member
  | token sort value => cases member
  | app label sort args =>
    rw [size_app]
    exact Nat.lt_of_le_of_lt below (Nat.lt_add_of_pos_left Nat.one_pos)
  | collection kind entries frame =>
    rw [size_collection]
    exact Nat.lt_of_le_of_lt below (Nat.lt_add_of_pos_left Nat.one_pos)

theorem size_part_lt {entry : Entry Term} {part : Term} {frame : Option Term}
    (member : entry ∈ entries) (inside : part ∈ entry.parts) :
    part.size < (normalized kind entries frame).size := by
  rw [normalized_eq_collection (splice_ne_nil (List.ne_nil_of_mem member))]
  refine size_lt_of_mem_children (mem_children_collection.mpr (.inl ⟨entry, ?_, inside⟩))
  exact mem_arrange.mpr (mem_splice_of_mem member)

theorem total_parts_pos (filled : entries ≠ []) :
    0 < total ((entries.flatMap Entry.parts).map size) := by
  obtain ⟨entry, member⟩ := List.exists_mem_of_ne_nil entries filled
  have inside : entry.key ∈ entries.flatMap Entry.parts :=
    List.mem_flatMap.mpr ⟨entry, member, entry.key_mem_parts⟩
  exact Nat.lt_of_lt_of_le entry.key.size_pos (le_total_of_mem (List.mem_map_of_mem inside))

end Size

section Shape

variable {kind : Kind} {entries : List (Entry Term)} {frame : Option Term} {s : Subst} {term : Term}

/-- The entries of a collection have the shape that its kind asks for, and the frame its sort. -/
def Shaped : Term → Prop
  | .collection kind entries frame =>
    (∀ entry ∈ entries, kind.checkShape entry = .ok ()) ∧ ∀ rest ∈ frame, rest.sort = kind.sort
  | _ => True

theorem checkShape_map (kind : Kind) (f : Term → Term) (entry : Entry Term) :
    kind.checkShape (entry.map f) = kind.checkShape entry := by
  cases entry <;> rfl

theorem shaped_splice (shapes : ∀ entry ∈ entries, kind.checkShape entry = .ok ())
    (sorts : ∀ rest ∈ frame, rest.sort = kind.sort) (last : ∀ rest ∈ frame, Everywhere Shaped rest) :
    (∀ entry ∈ (splice kind entries frame).1, kind.checkShape entry = .ok ()) ∧
      ∀ rest ∈ (splice kind entries frame).2, rest.sort = kind.sort := by
  cases frame with
  | none => exact ⟨shapes, sorts⟩
  | some term =>
    have whole := last term rfl
    have sorted := sorts term rfl
    clear last sorts
    induction term using induct generalizing entries with
    | collection inner more frame ihEntries ihFrame =>
      by_cases same : inner = kind
      · subst same
        obtain ⟨⟨moreShapes, moreSorts⟩, _, moreLast⟩ := Everywhere.collection_iff.mp whole
        have all := List.forall_mem_append.mpr ⟨shapes, moreShapes⟩
        rw [splice_some, contents_collection]
        cases frame with
        | none => exact ⟨all, nofun⟩
        | some rest =>
          have deeper := ihFrame rest rfl all (moreLast rest rfl) (moreSorts rest rfl)
          rw [splice_some] at deeper ⊢
          rw [List.append_assoc] at deeper
          exact deeper
      · have other : (collection inner more frame).kind? ≠ some kind := fun eq =>
          same (Option.some.inj eq)
        rw [splice_some, contents_of_kind other, List.append_nil]
        exact ⟨shapes, fun rest member => by cases member; exact sorted⟩
    | _ =>
      rw [splice_some, contents_of_kind (by nofun), List.append_nil]
      exact ⟨shapes, fun rest member => by cases member; exact sorted⟩

theorem shaped_normalized (shapes : ∀ entry ∈ entries, kind.checkShape entry = .ok ())
    (parts : ∀ entry ∈ entries, ∀ part ∈ entry.parts, Everywhere Shaped part)
    (sorts : ∀ rest ∈ frame, rest.sort = kind.sort) (last : ∀ rest ∈ frame, Everywhere Shaped rest) :
    Everywhere Shaped (normalized kind entries frame) := by
  obtain ⟨all, left⟩ := shaped_splice shapes sorts last
  exact .normalized parts last fun kept inside => ⟨fun entry member => all entry (inside entry member), left⟩

theorem sort_eq_of_accepts {sort : TermSort} (accepted : kind.sort.accepts sort = true) :
    sort = kind.sort := by
  simp only [TermSort.accepts, Bool.or_eq_true, beq_iff_eq] at accepted
  rcases accepted with same | top
  · exact same.symm
  · cases kind <;> cases top

/-- Substituting in a term of any form keeps the shapes of its collections, and it may make the sort of the
term smaller, but not that of a collection. -/
theorem shaped_fold_algebra (sorted : s.Sorted) (images : s.Canonical) (whole : Everywhere Shaped term)
    (shaped : ∀ v ∈ term.vars, Everywhere Shaped (s.image v)) :
    Everywhere Shaped (term.fold s.algebra) ∧ term.sort.accepts (term.fold s.algebra).sort = true := by
  induction term using induct with
  | var v => exact ⟨shaped v (by simp), sorted.image v⟩
  | token sort value => exact ⟨whole, TermSort.accepts_self sort⟩
  | app label sort args ih =>
    obtain ⟨_, inner⟩ := Everywhere.app_iff.mp whole
    rw [fold_app]
    refine ⟨Everywhere.app_iff.mpr ⟨trivial, fun image member => ?_⟩, TermSort.accepts_self sort⟩
    obtain ⟨arg, inside, rfl⟩ := List.mem_map.mp member
    exact (ih arg inside (inner arg inside) fun v occurs =>
      shaped v (mem_vars_app.mpr ⟨arg, inside, occurs⟩)).1
  | collection kind entries frame ihEntries ihFrame =>
    obtain ⟨⟨shapes, sorts⟩, inner, last⟩ := Everywhere.collection_iff.mp whole
    have parts : ∀ entry ∈ entries.map (Entry.map (fold s.algebra)), ∀ part ∈ entry.parts,
        Everywhere Shaped part := by
      intro entry member part inside
      obtain ⟨source, present, piece, within, rfl⟩ := Entry.mem_parts_map member inside
      exact (ihEntries source present piece within (inner source present piece within) fun v occurs =>
        shaped v (mem_vars_collection.mpr (.inl ⟨source, present, piece, within, occurs⟩))).1
    have frames : ∀ image ∈ frame.map (fold s.algebra),
        Everywhere Shaped image ∧ image.sort = kind.sort ∧ image.Canonical := by
      intro image member
      obtain ⟨source, present, rfl⟩ := Option.map_eq_some_iff.mp member
      obtain ⟨shapedRest, accepted⟩ := ihFrame source present (last source present) fun v occurs =>
        shaped v (mem_vars_collection.mpr (.inr ⟨source, present, occurs⟩))
      exact ⟨shapedRest, sort_eq_of_accepts (sorts source present ▸ accepted),
        images.normalizing.canonical source⟩
    rw [images.normalizing.fold_collection_eq]
    refine ⟨shaped_normalized (fun entry member => ?_) parts (fun image member => (frames image member).2.1)
      fun image member => (frames image member).1, ?_⟩
    · obtain ⟨source, present, rfl⟩ := List.mem_map.mp member
      rw [checkShape_map]
      exact shapes source present
    · rw [sort_normalized (fun image member => (frames image member).2.1)
        fun image member => (frames image member).2.2]
      exact TermSort.accepts_self kind.sort

private theorem shaped_apply (sorted : s.Sorted) (images : s.Canonical) (canonical : term.Canonical)
    (whole : Everywhere Shaped term) (shaped : ∀ v ∈ term.vars, Everywhere Shaped (s.image v)) :
    Everywhere Shaped (s.apply term) := by
  rw [Subst.apply_eq_fold_algebra s canonical]
  exact (shaped_fold_algebra sorted images whole shaped).1

end Shape

/-- A canonical term of a fragment, with collections as their kinds ask for. -/
structure Proper (fragment : Fragment) (term : Term) : Prop where
  canonical : term.Canonical
  within : term.Within fragment
  shaped : term.Everywhere Shaped

/-- Entries that a collection of the kind may have. -/
structure ProperEntries (fragment : Fragment) (kind : Kind) (entries : List (Entry Term)) : Prop where
  shapes : ∀ entry ∈ entries, kind.checkShape entry = .ok ()
  parts : ∀ entry ∈ entries, ∀ part ∈ entry.parts, Proper fragment part

/-- A frame that a collection of the kind may have. -/
structure ProperFrame (fragment : Fragment) (kind : Kind) (frame : Option Term) : Prop where
  sorts : ∀ rest ∈ frame, rest.sort = kind.sort
  proper : ∀ rest ∈ frame, Proper fragment rest

section Proper

variable {fragment : Fragment} {term : Term} {kind : Kind} {entries kept : List (Entry Term)}
  {frame : Option Term} {s : Subst}

theorem ProperEntries.subset (proper : ProperEntries fragment kind entries)
    (subset : ∀ entry ∈ kept, entry ∈ entries) : ProperEntries fragment kind kept where
  shapes entry member := proper.shapes entry (subset entry member)
  parts entry member := proper.parts entry (subset entry member)

theorem ProperFrame.none : ProperFrame fragment kind none :=
  ⟨nofun, nofun⟩

theorem ProperFrame.some (sort : term.sort = kind.sort) (proper : Proper fragment term) :
    ProperFrame fragment kind (some term) where
  sorts rest same := by
    cases same
    exact sort
  proper rest same := by
    cases same
    exact proper

namespace Proper

theorem var {v : Variable} (allowed : fragment.var v) : Proper fragment (.var v) :=
  ⟨.var v, Everywhere.var_iff.mpr allowed, Everywhere.var_iff.mpr trivial⟩

theorem of_app {label : String} {sort : TermSort} {args : List Term}
    (proper : Proper fragment (.app label sort args)) : ∀ arg ∈ args, Proper fragment arg :=
  fun arg member => ⟨proper.canonical.of_app arg member,
    (Everywhere.app_iff.mp proper.within).2 arg member,
    (Everywhere.app_iff.mp proper.shaped).2 arg member⟩

theorem of_entries (proper : Proper fragment (.collection kind entries frame)) :
    ProperEntries fragment kind entries where
  shapes := (Everywhere.collection_iff.mp proper.shaped).1.1
  parts entry member part inside := ⟨proper.canonical.of_entry entry member part inside,
    (Everywhere.collection_iff.mp proper.within).2.1 entry member part inside,
    (Everywhere.collection_iff.mp proper.shaped).2.1 entry member part inside⟩

theorem of_frame (proper : Proper fragment (.collection kind entries frame)) :
    ProperFrame fragment kind frame where
  sorts := (Everywhere.collection_iff.mp proper.shaped).1.2
  proper rest member := ⟨proper.canonical.of_frame rest member,
    (Everywhere.collection_iff.mp proper.within).2.2 rest member,
    (Everywhere.collection_iff.mp proper.shaped).2.2 rest member⟩

theorem normalized (allowed : fragment.kind kind) (inner : ProperEntries fragment kind entries)
    (last : ProperFrame fragment kind frame) :
    Proper fragment (Term.normalized kind entries frame) where
  canonical := .normalized (fun entry member part inside =>
    (inner.parts entry member part inside).canonical) fun rest member =>
      (last.proper rest member).canonical
  within := .normalized allowed (fun entry member part inside =>
    (inner.parts entry member part inside).within) fun rest member =>
      (last.proper rest member).within
  shaped := shaped_normalized inner.shapes (fun entry member part inside =>
    (inner.parts entry member part inside).shaped) last.sorts fun rest member =>
      (last.proper rest member).shaped

theorem apply (proper : Proper fragment term) (canonical : s.Canonical) (sorted : s.Sorted)
    (images : ∀ v ∈ term.vars, Proper fragment (s.image v)) : Proper fragment (s.apply term) where
  canonical := canonical.apply proper.canonical
  within := Within.apply proper.within fun v occurs => (images v occurs).within
  shaped := shaped_apply sorted canonical proper.canonical proper.shaped fun v occurs =>
    (images v occurs).shaped

/-- What a variable of a term of any form is replaced by is part of the instance. -/
theorem image_of_fold {v : Variable} (images : s.Canonical) (proper : Proper fragment (term.fold s.algebra))
    (occurs : v ∈ term.vars) : Proper fragment (s.image v) := by
  induction term using induct with
  | var w =>
    obtain rfl := List.mem_singleton.mp occurs
    exact proper
  | token sort value => cases occurs
  | app label sort args ih =>
    obtain ⟨arg, member, occurs⟩ := mem_vars_app.mp occurs
    rw [fold_app] at proper
    exact ih arg member (proper.of_app _ (List.mem_map_of_mem member)) occurs
  | collection kind entries frame ihEntries ihFrame =>
    rw [images.normalizing.fold_collection_eq] at proper
    by_cases bare : entries = []
    · -- The collection stands for what its frame stands for.
      subst bare
      rcases mem_vars_collection.mp occurs with ⟨entry, member, _⟩ | ⟨rest, same, below⟩
      · cases member
      · obtain rfl : frame = some rest := same
        refine ihFrame rest rfl ?_ below
        rwa [List.map_nil, Option.map_some, (images.normalizing.canonical rest).normalized_nil_some] at proper
    · rw [normalized_eq_collection (splice_ne_nil (mt List.map_eq_nil_iff.mp bare))] at proper
      have inner := proper.of_entries
      have last := proper.of_frame
      rcases mem_vars_collection.mp occurs with
        ⟨entry, member, part, inside, below⟩ | ⟨rest, same, below⟩
      · refine ihEntries entry member part inside (inner.parts _ (mem_arrange.mpr
          (mem_splice_of_mem (List.mem_map_of_mem member))) _ ?_) below
        rw [Entry.parts_map]
        exact List.mem_map_of_mem inside
      · -- The entries and the frame of what the frame stands for went into the collection around it.
        obtain rfl : frame = some rest := same
        refine ihFrame rest rfl ?_ below
        rw [Option.map_some, splice_some] at inner last
        have sealed : splice kind (Term.contents kind (rest.fold s.algebra)).1
            (Term.contents kind (rest.fold s.algebra)).2 = Term.contents kind (rest.fold s.algebra) :=
          splice_of_kind fun rest member => kind?_of_mem_contents member
        rw [(Canonical.eq_normalized_iff (images.normalizing.canonical rest)).mpr
          ⟨by rw [sealed]; exact kind.same_refl _, by rw [sealed]⟩]
        exact .normalized proper.within.here (inner.subset fun entry member =>
          mem_arrange.mpr (List.mem_append_right _ member)) last

end Proper

end Proper

end Reach.Term
