import Reach.Proofs.Subterm

/-!
Folds that keep the entries of sets and maps apart. Where the entries of the image of a collection,
those that its frame brings included, have distinct keys, none of them merge, and a set or a map can be
taken apart like a bag. A substitution that the fold absorbs does not change this, and under such a
fold an instance is larger than what stands for a variable inside.
-/

namespace Reach

namespace Kind

/-- No two entries have the same key, where the kind merges equal entries. -/
def Distinct (kind : Kind) (entries : List (Entry Term)) : Prop :=
  kind.idempotent = true → (entries.map Entry.key).Nodup

variable {kind : Kind} {entries first second : List (Entry Term)}

theorem distinct_of_countable (countable : kind.idempotent = false) : kind.Distinct entries := by
  intro merging
  cases countable.symm.trans merging

theorem Distinct.nodup (distinct : kind.Distinct entries) (merging : kind.idempotent = true) :
    entries.Nodup :=
  .of_map Entry.key (distinct merging)

theorem Distinct.perm (distinct : kind.Distinct first) (perm : first.Perm second) :
    kind.Distinct second :=
  fun merging => (perm.map Entry.key).nodup_iff.mp (distinct merging)

theorem Distinct.sublist (distinct : kind.Distinct second) (sublist : first.Sublist second) :
    kind.Distinct first :=
  fun merging => (distinct merging).sublist (sublist.map Entry.key)

theorem Distinct.eq_of_key (distinct : kind.Distinct entries) (merging : kind.idempotent = true)
    {a b : Entry Term} (memberA : a ∈ entries) (memberB : b ∈ entries) (same : a.key = b.key) : a = b :=
  List.inj_on_of_nodup_map (distinct merging) memberA memberB same

/-- Where no entries merge, two lists that amount to the same have the same entries as often. -/
theorem Same.perm_of_distinct (same : kind.Same first second) (left : kind.Distinct first)
    (right : kind.Distinct second) : first.Perm second := by
  by_cases merging : kind.idempotent = true
  · exact (List.perm_ext_iff_of_nodup (left.nodup merging) (right.nodup merging)).mpr same.mem_iff
  · exact same.perm (by simpa using merging)

end Kind

namespace Term

variable {algebra : Algebra Term} {kind : Kind} {entries more : List (Entry Term)}
  {frame : Option Term} {rest term : Term}

theorem splice_append (kind : Kind) (entries : List (Entry Term)) (frame : Option Term) :
    splice kind entries frame = (entries ++ (splice kind [] frame).1, (splice kind [] frame).2) := by
  cases frame <;> simp

theorem arrange_perm_of_nodup (nodup : kind.idempotent = true → entries.Nodup) :
    (arrange kind entries).Perm entries := by
  by_cases merging : kind.idempotent = true
  · exact (List.perm_ext_iff_of_nodup (nodup_arrange merging entries) (nodup merging)).mpr
      fun entry => mem_arrange
  · exact arrange_perm (by simpa using merging) entries

namespace Algebra

/-- All entries of the image of a collection, before any of them merge. -/
def spread (algebra : Algebra Term) (kind : Kind) (entries : List (Entry Term))
    (frame : Option Term) : List (Entry Term) :=
  (splice kind (entries.map (Entry.map (fold algebra))) (frame.map (fold algebra))).1

def separatesAt (algebra : Algebra Term) : Term → Prop
  | .collection kind entries frame => kind.Distinct (algebra.spread kind entries frame)
  | _ => True

/-- No entries of a collection in the term merge in the image of the collection. -/
abbrev Separates (algebra : Algebra Term) : Term → Prop :=
  Everywhere algebra.separatesAt

theorem spread_eq (kind : Kind) (entries : List (Entry Term)) (frame : Option Term) :
    algebra.spread kind entries frame =
      entries.map (Entry.map (fold algebra)) ++ algebra.spread kind [] frame := by
  rw [spread, splice_append]
  rfl

theorem spread_append (kind : Kind) (entries more : List (Entry Term)) (frame : Option Term) :
    algebra.spread kind (entries ++ more) frame =
      entries.map (Entry.map (fold algebra)) ++ algebra.spread kind more frame := by
  rw [spread_eq, spread_eq kind more, List.map_append, List.append_assoc]

theorem separates_of_countable {fragment : Fragment} (within : term.Within fragment)
    (countable : ∀ kind, fragment.kind kind → kind.idempotent = false) : algebra.Separates term := by
  refine within.mono fun node allowed => ?_
  cases node with
  | collection kind entries frame => exact Kind.distinct_of_countable (countable kind allowed)
  | _ => trivial

/-- A frame brings what its contents are spread to. -/
theorem spread_contents (normalizing : algebra.Normalizing) (kind : Kind) (canonical : rest.Canonical)
    (separates : algebra.Separates rest) :
    (algebra.spread kind (contents kind rest).1 (contents kind rest).2).Perm
      (algebra.spread kind [] (some rest)) := by
  by_cases same : rest.kind? = some kind
  · cases rest with
    | collection inner entries frame =>
      obtain rfl := Option.some.inj same
      have image : algebra.spread inner [] (some (.collection inner entries frame)) =
          arrange inner (algebra.spread inner entries frame) := by
        rw [spread, Option.map_some, normalizing.fold_collection_eq, splice_some, contents_normalized]
        rfl
      rw [canonical.contents_eq, image]
      exact (arrange_perm_of_nodup separates.here.nodup).symm
    | _ => cases same
  · rw [contents_of_kind same]

private theorem spread_splice (normalizing : algebra.Normalizing) (kind : Kind)
    (canonical : ∀ rest ∈ frame, rest.Canonical) (separates : ∀ rest ∈ frame, algebra.Separates rest) :
    (algebra.spread kind (splice kind entries frame).1 (splice kind entries frame).2).Perm
      (algebra.spread kind entries frame) := by
  cases frame with
  | none => exact .refl _
  | some rest =>
    rw [splice_some, spread_append, spread_eq kind entries]
    exact (spread_contents normalizing kind (canonical rest rfl) (separates rest rfl)).append_left _

/-- A collection may be put in canonical form, if its own entries stay apart. -/
theorem Separates.normalized (normalizing : algebra.Normalizing)
    (parts : ∀ entry ∈ entries, ∀ part ∈ entry.parts, algebra.Separates part)
    (canonical : ∀ rest ∈ frame, rest.Canonical) (last : ∀ rest ∈ frame, algebra.Separates rest)
    (distinct : kind.Distinct (algebra.spread kind entries frame)) :
    algebra.Separates (Term.normalized kind entries frame) := by
  obtain ⟨all, left⟩ := Everywhere.splice kind parts last
  by_cases bare : (splice kind entries frame).1 = []
  · rw [normalized_eq_getD bare]
    cases shape : (splice kind entries frame).2 with
    | none => exact Everywhere.collection_iff.mpr ⟨fun _ => .nil, nofun, nofun⟩
    | some rest => exact left rest shape
  · have whole := distinct.perm (spread_splice normalizing kind canonical last).symm
    rw [normalized_eq_collection bare]
    refine Everywhere.collection_iff.mpr ⟨?_, fun entry member => all entry (mem_arrange.mp member), left⟩
    rw [spread_eq] at whole
    refine Kind.Distinct.perm whole ?_
    rw [spread_eq kind (arrange kind _)]
    refine (List.Perm.map _ ?_).append_right _
    refine (arrange_perm_of_nodup fun merging => ?_).symm
    exact .of_map _ (List.nodup_append.mp (whole.nodup merging)).1

theorem Separates.parts (separates : algebra.Separates (.collection kind entries frame)) :
    ∀ entry ∈ entries, ∀ part ∈ entry.parts, algebra.Separates part :=
  (Everywhere.collection_iff.mp separates).2.1

theorem Separates.last (separates : algebra.Separates (.collection kind entries frame)) :
    ∀ rest ∈ frame, algebra.Separates rest :=
  (Everywhere.collection_iff.mp separates).2.2

/-- A variable that stands for a collection brings the entries of that collection. -/
theorem distinct_spread_var {v : Variable} {common : List (Entry Term)} {opened : Option Term}
    (image : algebra.var v = Term.normalized kind common opened)
    (closed : ∀ rest ∈ opened, rest.kind? ≠ some kind)
    (distinct : kind.Distinct (entries.map (Entry.map (fold algebra)) ++ common)) :
    kind.Distinct (algebra.spread kind entries (some (.var v))) := by
  have brought : algebra.spread kind [] (some (.var v)) = arrange kind common := by
    rw [spread, Option.map_some, fold_var, image, splice_some, contents_normalized, splice_of_kind closed]
    rfl
  rw [spread_eq, brought]
  refine distinct.perm ((arrange_perm_of_nodup fun merging => ?_).symm.append_left _)
  exact (List.nodup_append.mp (distinct.nodup merging)).2.1

/-- Some of the entries are apart where all of them are. -/
theorem Separates.subperm {kept : List (Entry Term)} (inside : kept.Subperm entries)
    (separates : algebra.Separates (.collection kind entries frame)) :
    algebra.Separates (.collection kind kept frame) := by
  obtain ⟨chosen, perm, sublist⟩ := inside
  have here : kind.Distinct (algebra.spread kind entries frame) := separates.here
  rw [spread_eq] at here
  refine Everywhere.collection_iff.mpr ⟨?_, fun entry member => separates.parts entry ?_, separates.last⟩
  · rw [separatesAt, spread_eq]
    exact (here.sublist ((sublist.map _).append_right _)).perm ((perm.map _).append_right _)
  · exact sublist.subset (perm.mem_iff.mpr member)

theorem Separates.of_collection (normalizing : algebra.Normalizing)
    (canonical : ∀ rest ∈ frame, rest.Canonical)
    (separates : algebra.Separates (.collection kind entries frame)) :
    algebra.Separates (Term.normalized kind entries frame) :=
  .normalized normalizing separates.parts canonical separates.last separates.here

/-- An instance has the entries of the term, with the images of the variables in them. -/
theorem Separates.apply {s : Subst} (normalizing : algebra.Normalizing) (images : s.Canonical)
    (bindings : ∀ v ∈ term.vars, algebra.Separates (s.image v)) (canonical : term.Canonical)
    (separates : (algebra.after s).Separates term) : algebra.Separates (s.apply term) := by
  induction canonical with
  | var v =>
    rw [Subst.apply_var_eq]
    exact bindings v (by simp)
  | token sort value =>
    rw [Subst.apply_token_eq]
    exact Everywhere.token_iff.mpr trivial
  | app label sort parts ih =>
    obtain ⟨_, inner⟩ := Everywhere.app_iff.mp separates
    rw [Subst.apply_app_eq]
    refine Everywhere.app_iff.mpr ⟨trivial, List.forall_mem_map.mpr fun arg member => ?_⟩
    exact ih arg member (fun v occurs => bindings v (mem_vars_app.mpr ⟨arg, member, occurs⟩))
      (inner arg member)
  | collection parts last arranged ihEntries ihFrame =>
    rename_i kind entries frame
    have same : fold algebra ∘ s.apply = fold (algebra.after s) := funext (normalizing.fold_apply s)
    rw [Subst.apply_collection_eq s (.collection parts last arranged)]
    refine .normalized normalizing (fun entry member part inside => ?_) ?_ ?_ ?_
    · obtain ⟨source, present, piece, within, rfl⟩ := Entry.mem_parts_map member inside
      refine ihEntries source present piece within (fun v occurs => bindings v ?_)
        (separates.parts source present piece within)
      exact mem_vars_collection.mpr (.inl ⟨source, present, piece, within, occurs⟩)
    · intro image member
      obtain ⟨source, present, rfl⟩ := Option.map_eq_some_iff.mp member
      exact images.apply (last source present)
    · intro image member
      obtain ⟨source, present, rfl⟩ := Option.map_eq_some_iff.mp member
      refine ihFrame source present (fun v occurs => bindings v ?_) (separates.last source present)
      exact mem_vars_collection.mpr (.inr ⟨source, present, occurs⟩)
    · have entry : Entry.map (fold algebra) ∘ Entry.map s.apply = Entry.map (fold (algebra.after s)) := by
        funext entry
        rw [Function.comp_apply, Entry.map_map, same]
      rw [spread, List.map_map, Option.map_map, same, entry]
      exact separates.here

/-- What becomes of the entries of a term depends on the variables that occur in it. -/
theorem Separates.congr {onVar : Variable → Term} (same : ∀ v ∈ term.vars, algebra.var v = onVar v)
    (separates : algebra.Separates term) : Separates { algebra with var := onVar } term := by
  induction term using induct with
  | var v => exact Everywhere.var_iff.mpr trivial
  | token sort value => exact Everywhere.token_iff.mpr trivial
  | app label sort args ih =>
    obtain ⟨_, inner⟩ := Everywhere.app_iff.mp separates
    refine Everywhere.app_iff.mpr ⟨trivial, fun arg member => ih arg member (fun v occurs => ?_)
      (inner arg member)⟩
    exact same v (mem_vars_app.mpr ⟨arg, member, occurs⟩)
  | collection kind entries frame ihEntries ihFrame =>
    have here : kind.Distinct (algebra.spread kind entries frame) := separates.here
    have parts : ∀ entry ∈ entries, ∀ part ∈ entry.parts, ∀ v ∈ part.vars, algebra.var v = onVar v :=
      fun entry member part inside v occurs =>
        same v (mem_vars_collection.mpr (.inl ⟨entry, member, part, inside, occurs⟩))
    have frames : ∀ rest ∈ frame, ∀ v ∈ rest.vars, algebra.var v = onVar v := fun rest member v occurs =>
      same v (mem_vars_collection.mpr (.inr ⟨rest, member, occurs⟩))
    have images : entries.map (Entry.map (fold algebra)) =
        entries.map (Entry.map (fold { algebra with var := onVar })) :=
      List.map_congr_left fun entry member => Entry.map_congr fun part inside =>
        fold_congr (parts entry member part inside)
    have image : frame.map (fold algebra) = frame.map (fold { algebra with var := onVar }) :=
      Option.map_congr fun rest member => fold_congr (frames rest member)
    refine Everywhere.collection_iff.mpr ⟨?_, ?_, ?_⟩
    · rw [spread, images, image] at here
      exact here
    · exact fun entry member part inside => ihEntries entry member part inside
        (parts entry member part inside) (separates.parts entry member part inside)
    · exact fun rest member => ihFrame rest member (frames rest member) (separates.last rest member)

/-- A fold that keeps entries apart does so after a substitution that it absorbs. -/
theorem Separates.apply_absorbed {s : Subst} (normalizing : algebra.Normalizing)
    (absorbs : algebra.Absorbs s) (images : s.Canonical)
    (bindings : ∀ v, algebra.Separates (s.image v)) (canonical : term.Canonical)
    (separates : algebra.Separates term) : algebra.Separates (s.apply term) :=
  .apply normalizing images (fun v _ => bindings v) canonical
    (separates.congr fun v _ => (absorbs v).symm)

end Algebra

section Size

/-- Where entries do not merge, a frame is smaller than what it is put into. -/
theorem size_frame_lt (distinct : kind.Distinct (splice kind entries (some rest)).1)
    (filled : entries ≠ []) (canonical : rest.Canonical) :
    rest.size < (normalized kind entries (some rest)).size := by
  have positive := total_parts_pos filled
  rw [normalized_eq_collection (splice_ne_nil filled), size_collection]
  have parts := ((arrange_perm_of_nodup distinct.nodup).flatMap_right Entry.parts).map size
  rw [List.map_append, total_append, total_perm parts, splice_some, List.flatMap_append,
    List.map_append, total_append]
  by_cases same : rest.kind? = some kind
  · cases rest with
    | collection inner more frame =>
      obtain rfl := Option.some.inj same
      rw [canonical.contents_eq, size_collection, List.map_append, total_append]
      dsimp only
      omega
    | _ => cases same
  · rw [contents_of_kind same]
    simp only [Option.toList_some, List.map_cons, List.map_nil, total_cons, total_nil]
    omega

/-- The image of a variable is smaller than an instance of a term around the variable, where entries
do not merge. -/
theorem eq_var_or_size_lt {s : Subst} {v : Variable} (canonical : term.Canonical) (images : s.Canonical)
    (separates : s.algebra.Separates term) (occurs : v ∈ term.vars) :
    term = .var v ∨ (s.image v).size < (term.fold s.algebra).size := by
  have step {part whole : Term}
      (below : part = .var v ∨ (s.image v).size < (part.fold s.algebra).size)
      (inner : (part.fold s.algebra).size < whole.size) : (s.image v).size < whole.size := by
    rcases below with rfl | below
    · exact inner
    · exact Nat.lt_trans below inner
  induction canonical with
  | var w =>
    obtain rfl := List.mem_singleton.mp occurs
    exact .inl rfl
  | token sort value => cases occurs
  | app label sort parts ih =>
    obtain ⟨arg, member, inside⟩ := mem_vars_app.mp occurs
    refine .inr (step (ih arg member ((Everywhere.app_iff.mp separates).2 arg member) inside) ?_)
    rw [fold_app]
    exact size_lt_of_mem_children (List.mem_map_of_mem member)
  | collection parts last arranged ihEntries ihFrame =>
    obtain ⟨here, inner, rest⟩ := Everywhere.collection_iff.mp separates
    rw [images.normalizing.fold_collection_eq]
    rcases mem_vars_collection.mp occurs with
      ⟨entry, member, part, inside, occurs⟩ | ⟨frame, member, occurs⟩
    · have image : part.fold s.algebra ∈ (entry.map (fold s.algebra)).parts := by
        rw [Entry.parts_map]
        exact List.mem_map_of_mem inside
      exact .inr (step (ihEntries entry member part inside (inner entry member part inside) occurs)
        (size_part_lt (List.mem_map_of_mem member) image))
    · obtain ⟨_, _, bare⟩ := normalized_eq_self_iff.mp arranged
      refine .inr (step (ihFrame frame member (rest frame member) occurs) ?_)
      obtain rfl : _ = some frame := member
      refine size_frame_lt here (fun empty => ?_) (images.normalizing.canonical frame)
      cases bare (List.map_eq_nil_iff.mp empty)

end Size

end Term

end Reach
