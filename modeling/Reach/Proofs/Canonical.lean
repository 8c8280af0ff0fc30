import Reach.Proofs.Arrangement
import Reach.Term.Parts

/-!
Canonical terms. The entries that a term contributes to a collection around it are its `contents`;
two collections have one canonical form exactly when their contents amount to the same, and a
canonical collection inside another may be taken apart without changing the whole.
-/

namespace Reach.Term

/-- The kind of a collection. -/
def kind? : Term → Option Kind
  | collection kind _ _ => some kind
  | _ => none

/-- What a term stands for as the frame of a collection: entries, and the frame that is left. -/
def contents (kind : Kind) (term : Term) : List (Entry Term) × Option Term :=
  spliceTerm kind [] term

section Contents

variable {kind : Kind} {entries more : List (Entry Term)} {frame : Option Term} {term : Term}

theorem spliceTerm_of_kind (other : term.kind? ≠ some kind) :
    spliceTerm kind entries term = (entries, some term) := by
  cases term with
  | collection inner more frame =>
    have differ : inner ≠ kind := fun same => other (congrArg some same)
    simp [spliceTerm, differ]
  | _ => rfl

theorem spliceTerm_collection :
    spliceTerm kind entries (collection kind more frame) = splice kind (entries ++ more) frame := by
  rw [spliceTerm, if_pos rfl]

private theorem spliceTerm_eq (kind : Kind) (entries : List (Entry Term)) (term : Term) :
    spliceTerm kind entries term =
      (entries ++ (contents kind term).1, (contents kind term).2) := by
  induction term using induct generalizing entries with
  | var v => simp [contents, spliceTerm]
  | app label sort args ih => simp [contents, spliceTerm]
  | token sort value => simp [contents, spliceTerm]
  | collection inner more frame ihEntries ihFrame =>
    by_cases same : inner = kind
    · subst same
      cases frame with
      | none => simp [contents, spliceTerm_collection, splice]
      | some rest =>
        rw [contents, spliceTerm_collection, spliceTerm_collection, splice, splice,
          ihFrame rest rfl (entries ++ more), ihFrame rest rfl ([] ++ more)]
        simp
    · have other : (collection inner more frame).kind? ≠ some kind := fun eq =>
        same (Option.some.inj eq)
      simp [contents, spliceTerm_of_kind other]

@[simp]
theorem splice_none : splice kind entries none = (entries, none) :=
  rfl

@[simp]
theorem splice_some : splice kind entries (some term) =
    (entries ++ (contents kind term).1, (contents kind term).2) :=
  spliceTerm_eq kind entries term

@[simp]
theorem contents_collection : contents kind (collection kind more frame) = splice kind more frame := by
  rw [contents, spliceTerm_collection, List.nil_append]

theorem contents_of_kind (other : term.kind? ≠ some kind) : contents kind term = ([], some term) :=
  spliceTerm_of_kind other

theorem splice_of_kind (other : ∀ rest ∈ frame, rest.kind? ≠ some kind) :
    splice kind entries frame = (entries, frame) := by
  cases frame with
  | none => rfl
  | some rest => rw [splice_some, contents_of_kind (other rest rfl), List.append_nil]

/-- Nothing that could be taken apart is left as a frame. -/
theorem kind?_of_mem_contents {rest : Term} (left : rest ∈ (contents kind term).2) :
    rest.kind? ≠ some kind := by
  induction term using induct with
  | var v => cases left; nofun
  | app label sort args ih => cases left; nofun
  | token sort value => cases left; nofun
  | collection inner more frame ihEntries ihFrame =>
    by_cases same : inner = kind
    · subst same
      rw [contents_collection] at left
      cases frame with
      | none => cases left
      | some term =>
        rw [splice_some] at left
        exact ihFrame term rfl left
    · have other : (collection inner more frame).kind? ≠ some kind := fun eq =>
        same (Option.some.inj eq)
      rw [contents_of_kind other] at left
      cases left
      exact other

theorem kind?_of_mem_splice {rest : Term} (left : rest ∈ (splice kind entries frame).2) :
    rest.kind? ≠ some kind := by
  cases frame with
  | none => cases left
  | some term =>
    rw [splice_some] at left
    exact kind?_of_mem_contents left

end Contents

section Normalized

variable {kind : Kind} {entries entries' : List (Entry Term)} {frame frame' : Option Term}

theorem arrange_nil (kind : Kind) : arrange kind [] = [] :=
  arrange_eq_nil.mpr rfl

theorem normalized_eq_getD (bare : (splice kind entries frame).1 = []) :
    normalized kind entries frame = (splice kind entries frame).2.getD (empty kind) := by
  have arranged : arrange kind (splice kind entries frame).1 = [] := arrange_eq_nil.mpr bare
  unfold normalized
  simp only [arranged]
  cases (splice kind entries frame).2 <;> rfl

theorem normalized_eq_collection (filled : (splice kind entries frame).1 ≠ []) :
    normalized kind entries frame =
      collection kind (arrange kind (splice kind entries frame).1)
        (splice kind entries frame).2 := by
  have arranged : arrange kind (splice kind entries frame).1 ≠ [] :=
    fun eq => filled (arrange_eq_nil.mp eq)
  unfold normalized
  simp only
  split
  · next eq _ => exact absurd eq arranged
  · rfl

theorem normalized_nil_none (kind : Kind) : normalized kind [] none = empty kind :=
  normalized_eq_getD rfl

theorem normalized_none (kind : Kind) (entries : List (Entry Term)) :
    normalized kind entries none = collection kind (arrange kind entries) none := by
  by_cases bare : entries = []
  · rw [bare, normalized_nil_none, arrange_nil]
    rfl
  · exact normalized_eq_collection bare

theorem contents_normalized (kind : Kind) (entries : List (Entry Term)) (frame : Option Term) :
    contents kind (normalized kind entries frame) =
      (arrange kind (splice kind entries frame).1, (splice kind entries frame).2) := by
  by_cases bare : (splice kind entries frame).1 = []
  · rw [normalized_eq_getD bare, bare, arrange_nil]
    cases left : (splice kind entries frame).2 with
    | none => exact contents_collection
    | some rest => exact contents_of_kind (kind?_of_mem_splice left)
  · rw [normalized_eq_collection bare, contents_collection]
    exact splice_of_kind fun rest => kind?_of_mem_splice

/-- A canonical form tells what the entries amount to and which frame is left, and no more. -/
theorem normalized_eq_iff :
    normalized kind entries frame = normalized kind entries' frame' ↔
      kind.Same (splice kind entries frame).1 (splice kind entries' frame').1 ∧
        (splice kind entries frame).2 = (splice kind entries' frame').2 := by
  constructor
  · intro same
    have view := congrArg (contents kind) same
    rw [contents_normalized, contents_normalized, Prod.mk.injEq] at view
    exact ⟨arrange_eq_iff.mp view.1, view.2⟩
  · rintro ⟨same, left⟩
    have arranged := arrange_eq_iff.mpr same
    unfold normalized
    simp only [arranged, left]

theorem normalized_congr (frame : Option Term) (same : kind.Same entries entries') :
    normalized kind entries frame = normalized kind entries' frame := by
  cases frame with
  | none => exact normalized_eq_iff.mpr ⟨same, rfl⟩
  | some term =>
    rw [normalized_eq_iff, splice_some, splice_some]
    exact ⟨same.append (Kind.same_refl kind _), rfl⟩

/-- A canonical collection as a frame may be taken apart. -/
theorem normalized_nested (kind : Kind) (entries more : List (Entry Term)) (frame : Option Term) :
    normalized kind entries (some (normalized kind more frame)) =
      normalized kind (entries ++ more) frame := by
  rw [normalized_eq_iff, splice_some, contents_normalized]
  refine ⟨((Kind.same_refl kind entries).append (arrange_same kind _)).trans ?_, ?_⟩
  · cases frame <;> simp [Kind.same_refl]
  · cases frame <;> simp

/-- What it takes for a collection to be its own canonical form. -/
theorem normalized_eq_self_iff :
    normalized kind entries frame = collection kind entries frame ↔
      arrange kind entries = entries ∧ (∀ rest ∈ frame, rest.kind? ≠ some kind) ∧
        (entries = [] → frame = none) := by
  constructor
  · intro same
    by_cases bare : (splice kind entries frame).1 = []
    · rw [normalized_eq_getD bare] at same
      cases left : (splice kind entries frame).2 with
      | none =>
        rw [left] at same
        obtain ⟨_, rfl, rfl⟩ := collection.inj same
        exact ⟨arrange_nil kind, nofun, fun _ => rfl⟩
      | some rest =>
        rw [left] at same
        exact absurd (congrArg kind? same) (kind?_of_mem_splice left)
    · rw [normalized_eq_collection bare] at same
      obtain ⟨_, arranged, left⟩ := collection.inj same
      have sealed : ∀ rest ∈ frame, rest.kind? ≠ some kind := fun rest member =>
        kind?_of_mem_splice (left ▸ member)
      rw [splice_of_kind sealed] at arranged bare
      exact ⟨arranged, sealed, fun none => absurd none bare⟩
  · rintro ⟨arranged, sealed, bare⟩
    have parts : splice kind entries frame = (entries, frame) := splice_of_kind sealed
    by_cases none : entries = []
    · rw [normalized_eq_getD (by rw [parts, none]), parts, bare none, none]
      rfl
    · rw [normalized_eq_collection (by rwa [parts]), parts, arranged]

end Normalized

/-- Canonical forms are equal exactly when the collections are: bags with the same multiset of entries,
maps and sets with the same set of entries, and in each case the same frame. A collection with a
canonical collection of its kind as the frame is the collection of all their entries. -/
theorem normalized_decides_equality (kind : Kind) (entries entries' : List (Entry Term)) :
    (∀ frame frame' : Option Term, (∀ rest ∈ frame, rest.kind? ≠ some kind) →
      (∀ rest ∈ frame', rest.kind? ≠ some kind) →
        (kind = .bag → (normalized kind entries frame = normalized kind entries' frame' ↔
          frame = frame' ∧ entries.Perm entries')) ∧
        (kind = .set ∨ kind = .map → (normalized kind entries frame = normalized kind entries' frame' ↔
          frame = frame' ∧ ∀ entry, entry ∈ entries ↔ entry ∈ entries'))) ∧
    ∀ frame : Option Term, normalized kind entries (some (normalized kind entries' frame)) =
      normalized kind (entries ++ entries') frame := by
  refine ⟨fun frame frame' sealed sealed' => ?_, normalized_nested kind entries entries'⟩
  have decided : normalized kind entries frame = normalized kind entries' frame' ↔
      frame = frame' ∧ kind.Same entries entries' := by
    rw [normalized_eq_iff, splice_of_kind sealed, splice_of_kind sealed', and_comm]
  refine ⟨?_, ?_⟩
  · rintro rfl
    exact decided
  · rintro (rfl | rfl)
    · exact decided
    · exact decided

/-- Twice the number 2 and once the number 1, beside more numbers: as a bag they are told apart from
the numbers without the repeat, as a set they are not. -/
theorem normalized_decides_equality_ofRepeats :
    let one := Entry.element (token .int "1")
    let two := Entry.element (token .int "2")
    let more (kind : Kind) := some (var ⟨"R", kind.sort⟩)
    ((∀ rest ∈ more .bag, rest.kind? ≠ some .bag) ∧ ∀ rest ∈ more .set, rest.kind? ≠ some .set) ∧
      normalized .bag [two, one, two] (more .bag) = normalized .bag [one, two, two] (more .bag) ∧
      normalized .bag [two, one, two] (more .bag) ≠ normalized .bag [one, two] (more .bag) ∧
      normalized .set [two, one, two] (more .set) = normalized .set [one, two] (more .set) ∧
      normalized .set [two] (some (normalized .set [one] (more .set))) =
        normalized .set [two, one] (more .set) := by
  intro one two more
  have sealed (kind : Kind) : ∀ rest ∈ more kind, rest.kind? ≠ some kind := by simp [more, kind?]
  have asBags (entries entries' : List (Entry Term)) :=
    ((normalized_decides_equality .bag entries entries').1 _ _ (sealed .bag) (sealed .bag)).1 rfl
  have asSets (entries entries' : List (Entry Term)) :=
    ((normalized_decides_equality .set entries entries').1 _ _ (sealed .set) (sealed .set)).2 (.inl rfl)
  refine ⟨⟨sealed .bag, sealed .set⟩, ?_, ?_, ?_, ?_⟩
  · exact (asBags _ _).mpr ⟨rfl, .swap one two [two]⟩
  · exact fun same => absurd ((asBags _ _).mp same).2.length_eq (by decide)
  · exact (asSets _ _).mpr ⟨rfl, by simp [or_comm]⟩
  · exact (normalized_decides_equality .set [two] [one]).2 (more .set)

/-- Every collection in the term is in canonical form. -/
inductive Canonical : Term → Prop
  | var (v : Variable) : Canonical (var v)
  | app (label : String) (sort : TermSort) {args : List Term} (parts : ∀ arg ∈ args, Canonical arg) :
      Canonical (app label sort args)
  | token (sort : TermSort) (value : String) : Canonical (token sort value)
  | collection {kind : Kind} {entries : List (Entry Term)} {frame : Option Term}
      (parts : ∀ entry ∈ entries, ∀ part ∈ entry.parts, Canonical part)
      (rest : ∀ rest ∈ frame, Canonical rest)
      (arranged : normalized kind entries frame = collection kind entries frame) :
      Canonical (collection kind entries frame)

namespace Canonical

variable {kind : Kind} {entries : List (Entry Term)} {frame : Option Term} {term : Term}

theorem splice (kind : Kind) (parts : ∀ entry ∈ entries, ∀ part ∈ entry.parts, Canonical part)
    (rest : ∀ rest ∈ frame, Canonical rest) :
    (∀ entry ∈ (Term.splice kind entries frame).1, ∀ part ∈ entry.parts, Canonical part) ∧
      ∀ rest ∈ (Term.splice kind entries frame).2, Canonical rest := by
  cases frame with
  | none => exact ⟨parts, rest⟩
  | some term =>
    have whole := rest term rfl
    by_cases other : term.kind? = some kind
    · cases whole with
      | collection inner last arranged =>
        obtain rfl := Option.some.inj other
        obtain ⟨_, sealed, _⟩ := normalized_eq_self_iff.mp arranged
        rw [splice_some, contents_collection, splice_of_kind sealed]
        refine ⟨fun entry member => ?_, last⟩
        rcases List.mem_append.mp member with member | member
        · exact parts entry member
        · exact inner entry member
      | _ => cases other
    · rw [splice_some, contents_of_kind other, List.append_nil]
      exact ⟨parts, rest⟩

/-- A collection made of canonical terms is canonical once it is put in canonical form. -/
theorem normalized (parts : ∀ entry ∈ entries, ∀ part ∈ entry.parts, Canonical part)
    (rest : ∀ rest ∈ frame, Canonical rest) : Canonical (Term.normalized kind entries frame) := by
  obtain ⟨all, left⟩ := splice kind parts rest
  by_cases bare : (Term.splice kind entries frame).1 = []
  · rw [normalized_eq_getD bare]
    cases shape : (Term.splice kind entries frame).2 with
    | none =>
      exact .collection nofun nofun
        (normalized_eq_self_iff.mpr ⟨arrange_nil kind, nofun, fun _ => rfl⟩)
    | some rest => exact left rest shape
  · rw [normalized_eq_collection bare]
    refine .collection (fun entry member => all entry (mem_arrange.mp member)) left ?_
    refine normalized_eq_self_iff.mpr ⟨arrange_arrange kind _, fun rest => kind?_of_mem_splice, ?_⟩
    exact fun none => absurd (arrange_eq_nil.mp none) bare

/-- Without entries around it a canonical frame is the collection. -/
theorem normalized_nil_some (canonical : Canonical term) :
    Term.normalized kind [] (some term) = term := by
  by_cases other : term.kind? = some kind
  · cases canonical with
    | collection parts rest arranged =>
      obtain rfl := Option.some.inj other
      rw [← arranged, normalized_nested, List.nil_append]
    | _ => cases other
  · have bare : (Term.splice kind [] (some term)).1 = [] := by
      rw [splice_some, contents_of_kind other, List.append_nil]
    rw [normalized_eq_getD bare, splice_some, contents_of_kind other]
    rfl

/-- A canonical term is what its contents make. -/
theorem eq_normalized_iff (canonical : Canonical term) :
    term = Term.normalized kind entries frame ↔
      kind.Same (contents kind term).1 (Term.splice kind entries frame).1 ∧
        (contents kind term).2 = (Term.splice kind entries frame).2 := by
  have whole : Term.normalized kind [] (some term) = term := canonical.normalized_nil_some
  conv_lhs => lhs; rw [← whole]
  rw [normalized_eq_iff, splice_some, List.nil_append]

theorem of_app {label : String} {sort : TermSort} {args : List Term}
    (canonical : Canonical (.app label sort args)) : ∀ arg ∈ args, Canonical arg := by
  cases canonical with
  | app _ _ parts => exact parts

theorem of_entry (canonical : Canonical (.collection kind entries frame)) :
    ∀ entry ∈ entries, ∀ part ∈ entry.parts, Canonical part := by
  cases canonical with
  | collection parts rest arranged => exact parts

theorem of_frame (canonical : Canonical (.collection kind entries frame)) :
    ∀ rest ∈ frame, Canonical rest := by
  cases canonical with
  | collection parts rest arranged => exact rest

theorem normalized_eq (canonical : Canonical (.collection kind entries frame)) :
    Term.normalized kind entries frame = .collection kind entries frame := by
  cases canonical with
  | collection parts rest arranged => exact arranged

/-- The parts of a canonical collection, as a frame, are the parts it shows. -/
theorem contents_eq (canonical : Canonical (.collection kind entries frame)) :
    contents kind (.collection kind entries frame) = (entries, frame) := by
  obtain ⟨_, sealed, _⟩ := normalized_eq_self_iff.mp canonical.normalized_eq
  rw [contents_collection, splice_of_kind sealed]

theorem splice_eq (canonical : Canonical (.collection kind entries frame)) :
    Term.splice kind entries frame = (entries, frame) := by
  rw [← contents_collection, canonical.contents_eq]

/-- Sets and maps hold each entry once. -/
theorem nodup (canonical : Canonical (.collection kind entries frame))
    (merging : kind.idempotent = true) : entries.Nodup := by
  obtain ⟨arranged, _⟩ := normalized_eq_self_iff.mp canonical.normalized_eq
  rw [← arranged]
  exact nodup_arrange merging entries

theorem nodup_contents (canonical : Canonical term) (merging : kind.idempotent = true) :
    (contents kind term).1.Nodup := by
  by_cases other : term.kind? = some kind
  · cases canonical with
    | collection parts rest arranged =>
      obtain rfl := Option.some.inj other
      have whole := Canonical.collection parts rest arranged
      rw [whole.contents_eq]
      exact whole.nodup merging
    | _ => cases other
  · rw [contents_of_kind other]
    exact .nil

theorem kind?_of_frame (canonical : Canonical (.collection kind entries frame)) :
    ∀ rest ∈ frame, rest.kind? ≠ some kind := by
  obtain ⟨_, sealed, _⟩ := normalized_eq_self_iff.mp canonical.normalized_eq
  exact sealed

end Canonical

end Reach.Term
