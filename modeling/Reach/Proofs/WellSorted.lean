import Mathlib.Data.List.Pairwise
import Reach.Proofs.Subterm

/-!
What it means for a term to pass the check of a signature: each node fits its declaration or its
kind. In a canonical map that passes, a ground key belongs to one entry only.
-/

namespace Reach

section Outcome

variable {ε α β : Type}

theorem bind_eq_ok_iff {first : Except ε α} {next : α → Except ε β} {result : β} :
    first >>= next = .ok result ↔ ∃ value, first = .ok value ∧ next value = .ok result := by
  cases first with
  | error cause => exact ⟨nofun, fun ⟨_, impossible, _⟩ => nomatch impossible⟩
  | ok value => exact ⟨fun rest => ⟨value, rfl, rest⟩, fun ⟨_, same, rest⟩ => by cases same; exact rest⟩

theorem seq_eq_ok_iff {first : Except ε Unit} {next : Unit → Except ε β} {result : β} :
    first >>= next = .ok result ↔ first = .ok () ∧ next () = .ok result := by
  rw [bind_eq_ok_iff]
  exact ⟨fun ⟨_, done, rest⟩ => ⟨done, rest⟩, fun ⟨done, rest⟩ => ⟨(), done, rest⟩⟩

theorem forM_eq_ok_iff {items : List α} {action : α → Except ε Unit} :
    items.forM action = .ok () ↔ ∀ item ∈ items, action item = .ok () := by
  induction items with
  | nil => exact ⟨fun _ => nofun, fun _ => rfl⟩
  | cons first rest ih =>
    have unfolded : (first :: rest).forM action = action first >>= fun _ => rest.forM action := rfl
    rw [unfolded, seq_eq_ok_iff, ih, List.forall_mem_cons]

private theorem ite_eq_ok_iff {condition : Prop} [Decidable condition] {cause : ε} :
    (if condition then (.ok () : Except ε Unit) else .error cause) = .ok () ↔ condition := by
  split <;> simp_all

end Outcome

namespace Signature

/-- A node fits: an application its declaration, a collection the rules of its kind. -/
def Fits (sig : Signature) : Term → Prop
  | .var _ => True
  | .token _ _ => True
  | .app label sort args =>
    ∃ decl, sig.labels.get? label = some decl ∧ decl.sort = sort ∧
      decl.args.length = args.length ∧
      ∀ pair ∈ decl.args.zip args, pair.1.accepts pair.2.sort = true
  | .collection kind entries frame =>
    (∀ entry ∈ entries, kind.checkShape entry = .ok ()) ∧
      (∀ rest ∈ frame, rest.sort = kind.sort) ∧ kind.checkKeys entries = .ok ()

variable {sig : Signature}

theorem label_eq_ok_iff {label : String} {decl : Declaration} :
    sig.label label = .ok decl ↔ sig.labels.get? label = some decl := by
  unfold Signature.label
  cases sig.labels.get? label <;> simp

theorem checkArgs_eq_ok_iff {decl : Declaration} {args : List Term} :
    decl.checkArgs args = .ok () ↔ decl.args.length = args.length ∧
      ∀ pair ∈ decl.args.zip args, pair.1.accepts pair.2.sort = true := by
  unfold Declaration.checkArgs
  split
  · next size =>
    rw [forM_eq_ok_iff]
    simp only [ite_eq_ok_iff, size, true_and]
  · next size => simp [size]

private theorem checkAll_eq_ok_iff {args : List Term} :
    sig.checkAll args = .ok () ↔ ∀ arg ∈ args, sig.check arg = .ok () := by
  induction args with
  | nil => exact ⟨fun _ => nofun, fun _ => rfl⟩
  | cons arg rest ih => rw [checkAll, seq_eq_ok_iff, ih, List.forall_mem_cons]

private theorem checkEntry_eq_ok_iff {kind : Kind} {entry : Entry Term} :
    sig.checkEntry kind entry = .ok () ↔
      kind.checkShape entry = .ok () ∧ ∀ part ∈ entry.parts, sig.check part = .ok () := by
  cases entry with
  | element item => simp [checkEntry, seq_eq_ok_iff, Entry.parts]
  | binding key value => simp [checkEntry, seq_eq_ok_iff, Entry.parts]

private theorem checkEntries_eq_ok_iff {kind : Kind} {entries : List (Entry Term)} :
    sig.checkEntries kind entries = .ok () ↔
      (∀ entry ∈ entries, kind.checkShape entry = .ok ()) ∧
        ∀ entry ∈ entries, ∀ part ∈ entry.parts, sig.check part = .ok () := by
  induction entries with
  | nil => exact ⟨fun _ => ⟨nofun, nofun⟩, fun _ => rfl⟩
  | cons entry rest ih =>
    rw [checkEntries, seq_eq_ok_iff, ih, checkEntry_eq_ok_iff, List.forall_mem_cons,
      List.forall_mem_cons]
    exact and_and_and_comm

private theorem checkRest_eq_ok_iff {kind : Kind} {frame : Option Term} :
    sig.checkRest kind frame = .ok () ↔
      (∀ rest ∈ frame, rest.sort = kind.sort) ∧ ∀ rest ∈ frame, sig.check rest = .ok () := by
  cases frame with
  | none => exact ⟨fun _ => ⟨nofun, nofun⟩, fun _ => rfl⟩
  | some rest => simp [checkRest, seq_eq_ok_iff, Kind.checkFrame]

/-- A term passes the check exactly when every node fits. -/
theorem check_eq_ok_iff (sig : Signature) (term : Term) :
    sig.check term = .ok () ↔ Term.Everywhere sig.Fits term := by
  induction term using Term.induct with
  | var v => exact ⟨fun _ => Term.Everywhere.var_iff.mpr trivial, fun _ => rfl⟩
  | token sort value => exact ⟨fun _ => Term.Everywhere.token_iff.mpr trivial, fun _ => rfl⟩
  | app label sort args ih =>
    rw [check, Term.Everywhere.app_iff, bind_eq_ok_iff, Fits]
    simp only [label_eq_ok_iff]
    have parts : sig.checkAll args = .ok () ↔ ∀ arg ∈ args, Term.Everywhere sig.Fits arg := by
      rw [checkAll_eq_ok_iff]
      exact forall_congr' fun arg => imp_congr_right fun member => ih arg member
    constructor
    · rintro ⟨decl, declared, rest⟩
      split at rest
      · cases rest
      · next same =>
        obtain ⟨fitting, all⟩ := seq_eq_ok_iff.mp rest
        exact ⟨⟨decl, declared, not_not.mp same, checkArgs_eq_ok_iff.mp fitting⟩, parts.mp all⟩
    · rintro ⟨⟨decl, declared, same, fitting⟩, all⟩
      refine ⟨decl, declared, ?_⟩
      rw [if_neg (not_not.mpr same)]
      exact seq_eq_ok_iff.mpr ⟨checkArgs_eq_ok_iff.mpr fitting, parts.mpr all⟩
  | collection kind entries frame ihEntries ihFrame =>
    rw [check, Term.Everywhere.collection_iff, seq_eq_ok_iff, seq_eq_ok_iff,
      checkEntries_eq_ok_iff, checkRest_eq_ok_iff, Fits]
    have parts : (∀ entry ∈ entries, ∀ part ∈ entry.parts, sig.check part = .ok ()) ↔
        ∀ entry ∈ entries, ∀ part ∈ entry.parts, Term.Everywhere sig.Fits part :=
      forall_congr' fun entry => imp_congr_right fun member => forall_congr' fun part =>
        imp_congr_right fun inside => ihEntries entry member part inside
    have last : (∀ rest ∈ frame, sig.check rest = .ok ()) ↔
        ∀ rest ∈ frame, Term.Everywhere sig.Fits rest :=
      forall_congr' fun rest => imp_congr_right fun member => ihFrame rest member
    rw [parts, last]
    tauto

/-- The applications of declared labels, at their declared sorts. -/
def declared (sig : Signature) : Term.Fragment where
  label label sort := ∃ decl, sig.labels.get? label = some decl ∧ decl.sort = sort

theorem within_declared {term : Term} (checked : sig.check term = .ok ()) :
    term.Within sig.declared := by
  refine ((check_eq_ok_iff sig term).mp checked).mono fun node fits => ?_
  cases node with
  | app label sort args =>
    obtain ⟨decl, found, same, _⟩ := fits
    exact ⟨decl, found, same⟩
  | _ => trivial

theorem shaped_of_check {term : Term} (checked : sig.check term = .ok ()) :
    term.Everywhere Term.Shaped := by
  refine ((check_eq_ok_iff sig term).mp checked).mono fun node fits => ?_
  cases node with
  | collection kind entries frame => exact ⟨fits.1, fits.2.1⟩
  | _ => trivial

theorem proper_of_check {term : Term} (canonical : term.Canonical)
    (checked : sig.check term = .ok ()) : term.Proper sig.declared :=
  ⟨canonical, within_declared checked, shaped_of_check checked⟩

/-- An instance of a term without maps passes the check if the images of its variables do. -/
theorem check_apply {s : Subst} {term : Term} (canonical : term.Canonical)
    (checked : sig.check term = .ok ()) (unmapped : term.Within { kind := (· ≠ .map) })
    (sorted : s.Sorted) (images : ∀ v ∈ term.vars, sig.check (s.image v) = .ok ()) :
    sig.check (s.apply term) = .ok () := by
  have fits := (check_eq_ok_iff sig term).mp checked
  clear checked
  simp only [check_eq_ok_iff] at images ⊢
  induction canonical with
  | var v =>
    rw [Subst.apply_var_eq]
    exact images v (by simp)
  | token sort value =>
    rw [Subst.apply_token_eq]
    exact fits
  | app label sort parts ih =>
    rename_i args
    obtain ⟨⟨decl, declared, same, size, accepted⟩, inner⟩ := Term.Everywhere.app_iff.mp fits
    obtain ⟨_, innerUnmapped⟩ := Term.Everywhere.app_iff.mp unmapped
    rw [Subst.apply_app_eq]
    refine Term.Everywhere.app_iff.mpr ⟨⟨decl, declared, same, by simpa using size, ?_⟩, ?_⟩
    · intro pair member
      rw [List.zip_map_right] at member
      obtain ⟨⟨expected, arg⟩, present, rfl⟩ := List.mem_map.mp member
      exact TermSort.accepts_trans (accepted (expected, arg) present)
        (sorted.apply (parts arg (List.of_mem_zip present).2))
    · intro image member
      obtain ⟨arg, inside, rfl⟩ := List.mem_map.mp member
      refine ih arg inside (innerUnmapped arg inside) (inner arg inside) fun v occurs => ?_
      exact images v (Term.mem_vars_app.mpr ⟨arg, inside, occurs⟩)
  | collection parts rest arranged ihEntries ihFrame =>
    rename_i kind entries frame
    have whole := Term.Canonical.collection parts rest arranged
    obtain ⟨⟨shapes, sorts, _⟩, inner, last⟩ := Term.Everywhere.collection_iff.mp fits
    obtain ⟨other, innerUnmapped, lastUnmapped⟩ := Term.Everywhere.collection_iff.mp unmapped
    have fitsFrame : ∀ image ∈ frame.map s.apply, Term.Everywhere sig.Fits image := by
      intro image member
      obtain ⟨source, present, rfl⟩ := Option.map_eq_some_iff.mp member
      refine ihFrame source present (lastUnmapped source present) (last source present) fun v occurs => ?_
      exact images v (Term.mem_vars_collection.mpr (.inr ⟨source, present, occurs⟩))
    have shapesImage : ∀ entry ∈ entries.map (Entry.map s.apply), kind.checkShape entry = .ok () := by
      intro entry member
      obtain ⟨source, present, rfl⟩ := List.mem_map.mp member
      rw [Term.checkShape_map]
      exact shapes source present
    have sortsImage : ∀ image ∈ frame.map s.apply, image.sort = kind.sort := by
      intro image member
      obtain ⟨source, present, rfl⟩ := Option.map_eq_some_iff.mp member
      exact Term.sort_eq_of_accepts (sorts source present ▸ sorted.apply (rest source present))
    obtain ⟨all, left⟩ := Term.shaped_splice shapesImage sortsImage fun image member =>
      shaped_of_check ((check_eq_ok_iff sig image).mpr (fitsFrame image member))
    rw [Subst.apply_collection_eq s whole]
    refine .normalized (fun entry member part inside => ?_) fitsFrame fun kept inside => ?_
    · obtain ⟨source, present, piece, within, rfl⟩ := Entry.mem_parts_map member inside
      refine ihEntries source present piece within (innerUnmapped source present piece within)
        (inner source present piece within) fun v occurs => ?_
      exact images v (Term.mem_vars_collection.mpr (.inl ⟨source, present, piece, within, occurs⟩))
    · exact ⟨fun entry member => all entry (inside entry member), left, if_neg other⟩

theorem sort_eq_of_declared {label : String} {sort sort' : TermSort}
    (first : sig.declared.label label sort) (second : sig.declared.label label sort') :
    sort = sort' := by
  obtain ⟨decl, found, rfl⟩ := first
  obtain ⟨decl', found', rfl⟩ := second
  rw [found] at found'
  cases found'
  rfl

end Signature

namespace Entry

/-- A ground key belongs to one entry only. -/
def Keyed (entries : List (Entry Term)) : Prop :=
  ∀ a ∈ entries, ∀ b ∈ entries, a.key = b.key → a.key.ground = true → a = b

theorem Keyed.subset {entries kept : List (Entry Term)} (keyed : Keyed entries)
    (subset : ∀ entry ∈ kept, entry ∈ entries) : Keyed kept :=
  fun a memberA b memberB => keyed a (subset a memberA) b (subset b memberB)

/-- Entries of one shape are ordered by their keys first. -/
theorem compare_key_isLE {kind : Kind} {a b : Entry Term} (shapeA : kind.checkShape a = .ok ())
    (shapeB : kind.checkShape b = .ok ()) (below : (compare a b).isLE) :
    (compare a.key b.key).isLE := by
  cases a with
  | element item =>
    cases b with
    | element item' => exact below
    | binding key value => simp_all [Kind.checkShape]
  | binding key value =>
    cases b with
    | element item' => simp_all [Kind.checkShape]
    | binding key' value' =>
      have unfolded : compare (binding key value) (binding key' value') =
          (compare key key').then (compare value value') := rfl
      rw [unfolded] at below
      cases order : compare key key' <;> simp_all [Entry.key]

private theorem keyed_of_checkKeys {entries : List (Entry Term)}
    (shapes : ∀ entry ∈ entries, Kind.map.checkShape entry = .ok ())
    (sorted : entries.Pairwise fun a b => compare a b = .lt)
    (checked : Kind.map.checkKeys entries = .ok ()) : Keyed entries := by
  have neighbours : ∀ pair ∈ entries.zip entries.tail,
      ¬(pair.1.key = pair.2.key ∧ pair.1.key.ground = true) := by
    rw [Kind.checkKeys, if_pos rfl, forM_eq_ok_iff] at checked
    rintro ⟨entry, next⟩ member repeated
    have passed := checked (entry, next) member
    simp only at passed repeated
    rw [if_pos repeated] at passed
    cases passed
  -- An entry with the key of a later one has the key of its neighbour, which lies between them.
  have apart : entries.Pairwise fun a b => ¬(a.key = b.key ∧ a.key.ground = true) := by
    clear checked
    induction entries with
    | nil => exact .nil
    | cons first rest ih =>
      obtain ⟨below, sortedRest⟩ := List.pairwise_cons.mp sorted
      obtain ⟨shape, shapesRest⟩ := List.forall_mem_cons.mp shapes
      cases rest with
      | nil => simp
      | cons second others =>
        rw [List.tail_cons, List.zip_cons_cons, List.forall_mem_cons] at neighbours
        refine List.pairwise_cons.mpr ⟨fun later member => ?_, ih shapesRest sortedRest neighbours.2⟩
        rintro ⟨same, ground⟩
        have up : (compare first.key second.key).isLE :=
          compare_key_isLE shape (shapesRest second (by simp)) (by rw [below second (by simp)]; rfl)
        have down : (compare second.key later.key).isLE := by
          rcases List.mem_cons.mp member with rfl | member
          · simp
          · have step := (List.pairwise_cons.mp sortedRest).1 later member
            exact compare_key_isLE (shapesRest second (by simp)) (shapesRest later (by simp [member]))
              (by rw [step]; rfl)
        rw [← same] at down
        have equal := Std.LawfulEqOrd.eq_of_compare (Std.OrientedCmp.isLE_antisymm up down)
        exact neighbours.1 ⟨equal, ground⟩
  intro a memberA b memberB same ground
  by_contra differ
  have symmetric : Std.Symm fun x y : Entry Term => ¬(x.key = y.key ∧ x.key.ground = true) :=
    ⟨fun x y differ ⟨same, ground⟩ => differ ⟨same.symm, same ▸ ground⟩⟩
  exact apart.forall memberA memberB differ ⟨same, ground⟩

end Entry

/-- In the collections of a term each ground key belongs to one entry. -/
def Term.keyed : Term → Prop
  | .collection _ entries _ => Entry.Keyed entries
  | _ => True

/-- In a canonical collection that fits its kind a ground key belongs to one entry. -/
theorem Signature.Fits.keyed {sig : Signature} {kind : Kind} {entries : List (Entry Term)}
    {frame : Option Term} (fits : sig.Fits (.collection kind entries frame))
    (canonical : (Term.collection kind entries frame).Canonical) : Entry.Keyed entries := by
  obtain ⟨shapes, _, checked⟩ := fits
  by_cases map : kind = .map
  · subst map
    obtain ⟨arranged, _, _⟩ := Term.normalized_eq_self_iff.mp canonical.normalized_eq
    have sorted : entries.Pairwise fun a b => compare a b = .lt := by
      rw [← arranged]
      exact Ordered.dropRepeats_pairwise (Ordered.sort_pairwise entries)
    exact Entry.keyed_of_checkKeys shapes sorted checked
  · intro a memberA b memberB same _
    have shapeA := shapes a memberA
    have shapeB := shapes b memberB
    cases a <;> cases b <;> simp_all [Kind.checkShape, Entry.key]

theorem Signature.everywhere_keyed {sig : Signature} {term : Term} (canonical : term.Canonical)
    (checked : sig.check term = .ok ()) : term.Everywhere Term.keyed := by
  have fits := (check_eq_ok_iff sig term).mp checked
  refine (canonical.everywhere.and fits).mono fun node ⟨whole, here⟩ => ?_
  cases node with
  | collection kind entries frame => exact here.keyed whole
  | _ => trivial

end Reach
