import Reach.Proofs.Semantics

/-!
The constructors that check one node at a time build what the check of a whole term accepts, and nothing
else. A canonical term that passes the check is rebuilt to itself, and what is rebuilt, from whatever
term, is canonical and passes the check.
-/

namespace Reach

namespace Term

section Traversal

variable {ε : Type} {r : Rebuilder ε} {term value : Term}

private theorem parts_of_traverseEntry {holds : Term → Prop} {entry image : Entry Term}
    (each : ∀ part ∈ entry.parts, ∀ value, traverse r part = .ok value → holds value)
    (made : traverseEntry r entry = .ok image) : ∀ part ∈ image.parts, holds part := by
  cases entry with
  | element item =>
    obtain ⟨item', first, made⟩ := bind_eq_ok_iff.mp made
    cases made
    exact List.forall_mem_singleton.mpr (each item (by simp [Entry.parts]) item' first)
  | binding key item =>
    obtain ⟨key', first, made⟩ := bind_eq_ok_iff.mp made
    obtain ⟨item', second, made⟩ := bind_eq_ok_iff.mp made
    cases made
    refine List.forall_mem_cons.mpr ⟨?_, List.forall_mem_singleton.mpr ?_⟩
    · exact each key (by simp [Entry.parts]) key' first
    · exact each item (by simp [Entry.parts]) item' second

/-- What holds of all that the steps make, if it holds of the parts, holds of what is rebuilt. -/
theorem holds_of_traverse (holds : Term → Prop) (var : ∀ v, holds (.var v))
    (token : ∀ sort text, holds (.token sort text))
    (app : ∀ {label sort args value}, (∀ arg ∈ args, holds arg) →
      r.app label sort args = .ok value → holds value)
    (collection : ∀ {kind entries frame value}, (∀ entry ∈ entries, ∀ part ∈ entry.parts, holds part) →
      (∀ rest ∈ frame, holds rest) → r.collection kind entries frame = .ok value → holds value)
    (made : traverse r term = .ok value) : holds value := by
  induction term using induct generalizing value with
  | var v =>
    cases made
    exact var v
  | token sort text =>
    cases made
    exact token sort text
  | app label sort args ih =>
    rw [traverse_app] at made
    obtain ⟨images, rebuilt, made⟩ := bind_eq_ok_iff.mp made
    exact app (Definition.forall_of_mapM_eq_ok (fun arg member _ => ih arg member) rebuilt) made
  | collection kind entries frame ihEntries ihFrame =>
    rw [traverse_collection] at made
    obtain ⟨images, rebuilt, made⟩ := bind_eq_ok_iff.mp made
    obtain ⟨last, rebuiltLast, made⟩ := bind_eq_ok_iff.mp made
    refine collection (Definition.forall_of_mapM_eq_ok (fun entry member _ one => ?_) rebuilt) ?_ made
    · exact parts_of_traverseEntry (fun part inside _ => ihEntries entry member part inside) one
    · cases frame with
      | none =>
        cases rebuiltLast
        exact nofun
      | some rest =>
        rw [Option.mapM_some] at rebuiltLast
        obtain ⟨image, first, same⟩ := bind_eq_ok_iff.mp rebuiltLast
        cases same
        exact fun _ equal => Option.some.inj equal ▸ ihFrame rest rfl first

/-- A term stays as it is where the steps leave each node as it is. -/
theorem traverse_eq_self {holds : Term → Prop}
    (app : ∀ {label sort args}, holds (.app label sort args) →
      r.app label sort args = .ok (.app label sort args))
    (collection : ∀ {kind entries frame}, holds (.collection kind entries frame) →
      r.collection kind entries frame = .ok (.collection kind entries frame))
    (everywhere : term.Everywhere holds) : traverse r term = .ok term := by
  have same {α : Type} {items : List α} {action : α → Except ε α}
      (each : ∀ item ∈ items, action item = .ok item) : items.mapM action = .ok items :=
    (Definition.mapM_eq_ok each).trans (congrArg Except.ok (List.map_id items))
  induction term using induct with
  | var v => rfl
  | token sort text => rfl
  | app label sort args ih =>
    obtain ⟨here, inner⟩ := Everywhere.app_iff.mp everywhere
    rw [traverse_app, same fun arg member => ih arg member (inner arg member)]
    exact app here
  | collection kind entries frame ihEntries ihFrame =>
    obtain ⟨here, inner, last⟩ := Everywhere.collection_iff.mp everywhere
    have each : ∀ entry ∈ entries, traverseEntry r entry = .ok entry := by
      intro entry member
      have still := fun part inside => ihEntries entry member part inside (inner entry member part inside)
      cases entry with
      | element item =>
        rw [traverseEntry, still item (by simp [Entry.parts])]
        rfl
      | binding key item =>
        rw [traverseEntry, still key (by simp [Entry.parts]), still item (by simp [Entry.parts])]
        rfl
    rw [traverse_collection, same each]
    cases frame with
    | none => exact collection here
    | some rest =>
      rw [Option.mapM_some, ihFrame rest rfl (last rest rfl)]
      exact collection here

end Traversal

end Term

namespace Signature

variable {sig : Signature} {term value : Term} {label : String} {sort : TermSort} {args : List Term}
  {kind : Kind} {entries : List (Entry Term)} {frame : Option Term}

/-- The constructor of applications makes the application that fits its declaration. -/
theorem app_eq_ok_iff :
    sig.app label args = .ok value ↔
      ∃ sort, value = .app label sort args ∧ sig.Fits (.app label sort args) := by
  unfold Signature.app
  rw [bind_eq_ok_iff]
  simp only [label_eq_ok_iff, seq_eq_ok_iff, checkArgs_eq_ok_iff]
  constructor
  · rintro ⟨decl, declared, fitting, made⟩
    cases made
    exact ⟨decl.sort, rfl, decl, declared, rfl, fitting⟩
  · rintro ⟨_, rfl, decl, declared, rfl, fitting⟩
    exact ⟨decl, declared, fitting, rfl⟩

/-- The constructor of collections makes the canonical form. It looks at the shapes and the sort of the
frame before, and at the keys after. -/
theorem collection_eq_ok_iff :
    collection kind entries frame = .ok value ↔
      value = .normalized kind entries frame ∧ (∀ entry ∈ entries, kind.checkShape entry = .ok ()) ∧
        (∀ rest ∈ frame, rest.sort = kind.sort) ∧
        ∀ inner kept rest, value = .collection inner kept rest → inner.checkKeys kept = .ok () := by
  have frames : frame.forM kind.checkFrame = .ok () ↔ ∀ rest ∈ frame, rest.sort = kind.sort := by
    cases frame with
    | none => exact ⟨fun _ => nofun, fun _ => rfl⟩
    | some rest => simp [Kind.checkFrame]
  unfold Signature.collection
  rw [seq_eq_ok_iff, seq_eq_ok_iff, forM_eq_ok_iff, frames]
  dsimp only
  constructor
  · rintro ⟨shapes, sorts, made⟩
    split at made
    · next shape =>
      obtain ⟨keys, made⟩ := seq_eq_ok_iff.mp made
      cases made
      refine ⟨rfl, shapes, sorts, fun inner kept rest same => ?_⟩
      cases shape.symm.trans same
      exact keys
    · next other =>
      cases made
      exact ⟨rfl, shapes, sorts, fun inner kept rest same => absurd same (other inner kept rest)⟩
  · rintro ⟨rfl, shapes, sorts, keys⟩
    refine ⟨shapes, sorts, ?_⟩
    split
    · next shape => exact seq_eq_ok_iff.mpr ⟨keys _ _ _ shape, rfl⟩
    · rfl

/-- A canonical collection that fits is its own canonical form, so that it is made of its parts. -/
theorem collection_eq_self (canonical : (Term.collection kind entries frame).Canonical)
    (fits : sig.Fits (.collection kind entries frame)) :
    collection kind entries frame = .ok (.collection kind entries frame) := by
  obtain ⟨shapes, sorts, keys⟩ := fits
  refine collection_eq_ok_iff.mpr ⟨canonical.normalized_eq.symm, shapes, sorts, ?_⟩
  intro inner kept rest same
  cases same
  exact keys

/-- What is made of parts that pass the check passes it. The entries that are spliced in have the shape
that the check of the frame asks for, and the keys are looked at when all entries are in their places. -/
theorem fits_of_collection (parts : ∀ entry ∈ entries, ∀ part ∈ entry.parts, part.Everywhere sig.Fits)
    (last : ∀ rest ∈ frame, rest.Everywhere sig.Fits)
    (made : collection kind entries frame = .ok value) : value.Everywhere sig.Fits := by
  obtain ⟨rfl, shapes, sorts, keys⟩ := collection_eq_ok_iff.mp made
  obtain ⟨allShapes, leftSort⟩ := Term.shaped_splice shapes sorts fun rest member =>
    shaped_of_check ((check_eq_ok_iff sig rest).mpr (last rest member))
  obtain ⟨all, left⟩ := Term.Everywhere.splice kind parts last
  by_cases bare : (Term.splice kind entries frame).1 = []
  · rw [Term.normalized_eq_getD bare]
    cases shape : (Term.splice kind entries frame).2 with
    | none =>
      have free : kind.checkKeys [] = .ok () := by
        unfold Kind.checkKeys
        split <;> rfl
      exact Term.Everywhere.collection_iff.mpr ⟨⟨nofun, nofun, free⟩, nofun, nofun⟩
    | some rest => exact left rest shape
  · have whole := Term.normalized_eq_collection bare
    rw [whole]
    refine Term.Everywhere.collection_iff.mpr ⟨⟨fun entry member => ?_, leftSort, keys _ _ _ whole⟩,
      fun entry member => all entry (Term.mem_arrange.mp member), left⟩
    exact allShapes entry (Term.mem_arrange.mp member)

private theorem rebuild_eq_self (canonical : term.Canonical) (checked : sig.check term = .ok ()) :
    sig.rebuild term = .ok term := by
  have everywhere := canonical.everywhere.and ((check_eq_ok_iff sig term).mp checked)
  refine Term.traverse_eq_self (fun here => ?_) (fun here => collection_eq_self here.1 here.2) everywhere
  exact app_eq_ok_iff.mpr ⟨_, rfl, here.2⟩

theorem of_rebuild (made : sig.rebuild term = .ok value) :
    value.Canonical ∧ sig.check value = .ok () := by
  rw [check_eq_ok_iff]
  refine Term.holds_of_traverse (fun value => value.Canonical ∧ value.Everywhere sig.Fits) (fun v => ?_)
    (fun sort text => ?_) (fun args made => ?_) (fun parts last made => ?_) made
  · exact ⟨.var v, Term.Everywhere.var_iff.mpr trivial⟩
  · exact ⟨.token sort text, Term.Everywhere.token_iff.mpr trivial⟩
  · obtain ⟨sort, rfl, fits⟩ := app_eq_ok_iff.mp made
    exact ⟨.app _ _ fun arg member => (args arg member).1,
      Term.Everywhere.app_iff.mpr ⟨fits, fun arg member => (args arg member).2⟩⟩
  · refine ⟨?_, fits_of_collection (fun entry member part inside => (parts entry member part inside).2)
      (fun rest member => (last rest member).2) made⟩
    obtain ⟨rfl, _⟩ := collection_eq_ok_iff.mp made
    exact .normalized (fun entry member part inside => (parts entry member part inside).1)
      fun rest member => (last rest member).1

/-- The checked constructors and the check accept the same terms: a canonical term is rebuilt to itself
exactly when it passes the check, and whatever is rebuilt is canonical and passes the check. -/
theorem rebuild_eq_ok_iff (sig : Signature) (term : Term) :
    (term.Canonical → (sig.rebuild term = .ok term ↔ sig.check term = .ok ())) ∧
      ∀ value, sig.rebuild term = .ok value → value.Canonical ∧ sig.check value = .ok () :=
  ⟨fun canonical => ⟨fun made => (of_rebuild made).2, rebuild_eq_self canonical⟩, fun _ => of_rebuild⟩

/-- Two bindings in the wrong order, before a frame that brings in another one. -/
def scattered : Term :=
  .collection .map [.binding (.ofInt 2) (.ofInt 20), .binding (.ofInt 1) (.ofInt 10)]
    (some (.collection .map [.binding (.ofInt 0) (.ofInt 0)] (some (.var ⟨"M", .map⟩))))

/-- The same bindings in order. -/
def gathered : Term :=
  .collection .map [.binding (.ofInt 0) (.ofInt 0), .binding (.ofInt 1) (.ofInt 10),
    .binding (.ofInt 2) (.ofInt 20)] (some (.var ⟨"M", .map⟩))

/-- The bindings are put in order, and left in order. -/
theorem rebuild_eq_ok_iff_gathered :
    builtin.rebuild scattered = .ok gathered ∧ gathered.Canonical ∧
      builtin.rebuild gathered = .ok gathered ∧ builtin.check gathered = .ok () := by
  have made : builtin.rebuild scattered = .ok gathered := by decide +kernel
  obtain ⟨canonical, checked⟩ := (rebuild_eq_ok_iff builtin scattered).2 gathered made
  exact ⟨made, canonical, ((rebuild_eq_ok_iff builtin gathered).1 canonical).mpr checked, checked⟩

end Signature

end Reach
