import Reach.Proofs.Decomposition
import Reach.Proofs.Freshness
import Reach.Proofs.Separation

/-!
Collections that a fold makes equal. Where entries do not merge, nothing is lost when their equation
is taken apart: some pairing of the entries is one that the fold makes equal as well, and two frames
have the rest of it in common.
-/

namespace Reach

namespace Term

variable {kind : Kind} {left right common : List (Entry Term)} {frame frame' : Option Term}

/-- What two collections have in common may be left out, where entries do not merge. -/
theorem normalized_append_cancel
    (distinct : kind.Distinct (splice kind (common ++ left) frame).1)
    (distinct' : kind.Distinct (splice kind (common ++ right) frame').1)
    (same : normalized kind (common ++ left) frame = normalized kind (common ++ right) frame') :
    normalized kind left frame = normalized kind right frame' := by
  rw [splice_append] at distinct distinct'
  rw [normalized_eq_iff, splice_append kind (common ++ left),
    splice_append kind (common ++ right)] at same
  rw [normalized_eq_iff, splice_append kind left, splice_append kind right]
  refine ⟨?_, same.2⟩
  by_cases ordered : kind.ordered = true
  · obtain rfl : kind = .list := by simpa [Kind.ordered] using ordered
    have equal : common ++ left ++ (splice .list [] frame).1 =
        common ++ right ++ (splice .list [] frame').1 := same.1
    rw [List.append_assoc, List.append_assoc] at equal
    exact List.append_cancel_left equal
  · have perm := same.1.perm_of_distinct distinct distinct'
    simp only [List.append_assoc] at perm
    exact Kind.same_of_perm (by simpa using ordered) ((List.perm_append_left_iff common).mp perm)

theorem Proper.contents {fragment : Fragment} {term : Term} (proper : Proper fragment term)
    (sorted : term.sort = kind.sort) :
    ProperEntries fragment kind (contents kind term).1 ∧
      ProperFrame fragment kind (Term.contents kind term).2 := by
  by_cases same : term.kind? = some kind
  · cases term with
    | collection inner entries frame =>
      obtain rfl := Option.some.inj same
      rw [proper.canonical.contents_eq]
      exact ⟨proper.of_entries, proper.of_frame⟩
    | _ => cases same
  · rw [contents_of_kind same]
    exact ⟨⟨nofun, nofun⟩, .some sorted proper⟩

end Term

namespace Unification

open Term

variable {algebra : Algebra Term} {kind : Kind} {left right : List (Entry Term)}
  {leftFrame rightFrame : Option Term}

/-- The fold makes the same collection of both sides. -/
def Reconciles (algebra : Algebra Term) (kind : Kind) (left right : List (Entry Term))
    (leftFrame rightFrame : Option Term) : Prop :=
  normalized kind (left.map (Entry.map (fold algebra))) (leftFrame.map (fold algebra)) =
    normalized kind (right.map (Entry.map (fold algebra))) (rightFrame.map (fold algebra))

theorem Reconciles.symm (same : Reconciles algebra kind left right leftFrame rightFrame) :
    Reconciles algebra kind right left rightFrame leftFrame :=
  Eq.symm same

theorem reconciles_iff_equates (normalizing : algebra.Normalizing) :
    Reconciles algebra kind left right leftFrame rightFrame ↔
      algebra.Equates (.collection kind left leftFrame, .collection kind right rightFrame) := by
  rw [Algebra.Equates, normalizing.fold_collection_eq, normalizing.fold_collection_eq]
  rfl

/-- The fold makes the same of both sides, and no entries of either merge. -/
structure Settles (algebra : Algebra Term) (goal : Goal) : Prop where
  equates : algebra.Equates goal
  left : algebra.Separates goal.1
  right : algebra.Separates goal.2

theorem Settles.reconciles (normalizing : algebra.Normalizing)
    (settles : Settles algebra (.collection kind left leftFrame, .collection kind right rightFrame)) :
    Reconciles algebra kind left right leftFrame rightFrame :=
  (reconciles_iff_equates normalizing).mpr settles.equates

theorem Reconciles.perm (same : Reconciles algebra kind left right leftFrame rightFrame)
    (distinct : kind.Distinct (algebra.spread kind left leftFrame))
    (distinct' : kind.Distinct (algebra.spread kind right rightFrame)) :
    (algebra.spread kind left leftFrame).Perm (algebra.spread kind right rightFrame) :=
  (normalized_eq_iff.mp same).1.perm_of_distinct distinct distinct'

/-- Entries that the fold makes equal may be left out on both sides. -/
theorem Reconciles.cancel {first second rest rest' : List (Entry Term)}
    (distinct : kind.Distinct (algebra.spread kind (first ++ rest) leftFrame))
    (distinct' : kind.Distinct (algebra.spread kind (second ++ rest') rightFrame))
    (equal : first.map (Entry.map (fold algebra)) = second.map (Entry.map (fold algebra)))
    (same : Reconciles algebra kind (first ++ rest) (second ++ rest') leftFrame rightFrame) :
    Reconciles algebra kind rest rest' leftFrame rightFrame := by
  rw [Algebra.spread, List.map_append] at distinct distinct'
  rw [Reconciles, List.map_append, List.map_append, equal] at same
  rw [equal] at distinct
  exact normalized_append_cancel distinct distinct' same

/-- An explicit entry on one side has to come from the frame of the other. -/
theorem Reconciles.exists_frame (normalizing : algebra.Normalizing) {rest : List (Entry Term)}
    (filled : rest ≠ []) (same : Reconciles algebra kind rest [] leftFrame rightFrame) :
    ∃ frame, rightFrame = some frame ∧ algebra.Equates (frame, .normalized kind rest leftFrame) := by
  cases rightFrame with
  | none =>
    obtain ⟨entries, _⟩ := normalized_eq_iff.mp same
    have images : rest.map (Entry.map (fold algebra)) ≠ [] := by simpa using filled
    exact absurd (entries.eq_nil_iff.mpr rfl) (splice_ne_nil images)
  | some frame =>
    refine ⟨frame, rfl, ?_⟩
    rw [Algebra.Equates, normalizing.fold_normalized]
    exact ((normalizing.canonical frame).normalized_nil_some.symm.trans same.symm)

/-- Without explicit entries the frames are the same, where none counts as empty. -/
theorem Reconciles.equates_getD (normalizing : algebra.Normalizing)
    (same : Reconciles algebra kind [] [] leftFrame rightFrame) :
    algebra.Equates (leftFrame.getD (.empty kind), rightFrame.getD (.empty kind)) := by
  have whole (frame : Option Term) : (frame.getD (.empty kind)).fold algebra =
      normalized kind [] (frame.map (fold algebra)) := by
    rw [← normalized_getD_empty normalizing, (normalizing.canonical _).normalized_nil_some]
  rw [Algebra.Equates, whole, whole]
  exact same

section Ordered

private theorem forall_zip_of_append_eq {α β : Type} {f : α → β} {first second : List α} {more more' : List β}
    (same : first.map f ++ more = second.map f ++ more') :
    ∀ pair ∈ first.zip second, f pair.1 = f pair.2 := by
  induction first generalizing second with
  | nil => simp
  | cons item rest ih =>
    cases second with
    | nil => simp
    | cons item' rest' =>
      obtain ⟨here, later⟩ := List.cons.inj same
      exact List.forall_mem_cons.mpr ⟨here, ih later⟩

theorem separates_getD_empty (separates : ∀ rest ∈ leftFrame, algebra.Separates rest) :
    algebra.Separates (leftFrame.getD (.empty kind)) := by
  cases leftFrame with
  | some rest => exact separates rest rfl
  | none => exact Everywhere.collection_iff.mpr ⟨fun _ => .nil, nofun, nofun⟩

/-- Two lists that the fold makes equal can be taken apart, and it solves what they are taken apart
into. -/
theorem expandOrdered_complete (normalizing : algebra.Normalizing) (ordered : kind.ordered = true)
    (canonical : ∀ rest ∈ leftFrame, rest.Canonical) (canonical' : ∀ rest ∈ rightFrame, rest.Canonical)
    (settles : Settles algebra (.collection kind left leftFrame, .collection kind right rightFrame))
    (p : Problem) :
    ∃ goals, p.expandOrdered kind left right leftFrame rightFrame = some (p.addGoals goals) ∧
      ∀ goal ∈ goals, Settles algebra goal := by
  obtain rfl : kind = .list := by simpa [Kind.ordered] using ordered
  have same := settles.reconciles normalizing
  obtain ⟨_, apartLeft, apartRight⟩ := settles
  have countable (entries : List (Entry Term)) : Kind.list.Distinct entries :=
    Kind.distinct_of_countable rfl
  have sides : ∀ pair ∈ left.zip right,
      pair.1.map (fold algebra) = pair.2.map (fold algebra) := by
    obtain ⟨entries, _⟩ := normalized_eq_iff.mp same
    rw [splice_append, splice_append .list (right.map _)] at entries
    exact forall_zip_of_append_eq entries
  obtain ⟨goals, front, equates⟩ := Pairing.forall_map_eq_map_iff.mp sides
  have solved : ∀ goal ∈ goals, Settles algebra goal := by
    intro goal member
    obtain ⟨first, second⟩ := forall_of_allGoals algebra.Separates front
      (fun pair inside => apartLeft.parts _ (List.of_mem_zip inside).1)
      (fun pair inside => apartRight.parts _ (List.of_mem_zip inside).2) goal member
    exact ⟨equates goal member, first, second⟩
  have beyond : Reconciles algebra .list (left.drop right.length) (right.drop left.length)
      leftFrame rightFrame := by
    refine Reconciles.cancel (countable _) (countable _) (Pairing.map_take_eq sides) ?_
    rw [left.take_append_drop, right.take_append_drop]
    exact same
  unfold Problem.expandOrdered
  simp only [front, Option.bind_eq_bind, Option.bind_some]
  split
  · next first rest longer =>
    have shorter : right.drop left.length = [] := by
      refine List.drop_eq_nil_iff.mpr (Nat.le_of_lt ?_)
      exact List.length_lt_of_drop_ne_nil (by rw [longer]; exact List.cons_ne_nil _ _)
    have apart : algebra.Separates (.normalized .list (left.drop right.length) leftFrame) :=
      (apartLeft.subperm (List.drop_sublist _ _).subperm).of_collection normalizing canonical
    rw [longer] at apart
    rw [longer, shorter] at beyond
    obtain ⟨frame, rfl, last⟩ := beyond.exists_frame normalizing (List.cons_ne_nil _ _)
    refine ⟨goals ++ [_], congrArg some (addGoals_addGoals p _ _), List.forall_mem_append.mpr ⟨solved, ?_⟩⟩
    exact List.forall_mem_singleton.mpr ⟨last, apartRight.last frame rfl, apart⟩
  · next first rest shorter longer =>
    have apart : algebra.Separates (.normalized .list (right.drop left.length) rightFrame) :=
      (apartRight.subperm (List.drop_sublist _ _).subperm).of_collection normalizing canonical'
    rw [longer] at apart
    rw [longer, shorter] at beyond
    obtain ⟨frame, rfl, last⟩ := beyond.symm.exists_frame normalizing (List.cons_ne_nil _ _)
    refine ⟨goals ++ [_], congrArg some (addGoals_addGoals p _ _), List.forall_mem_append.mpr ⟨solved, ?_⟩⟩
    exact List.forall_mem_singleton.mpr ⟨last, apartLeft.last frame rfl, apart⟩
  · next level level' =>
    rw [level, level'] at beyond
    split
    · exact ⟨goals, rfl, solved⟩
    · refine ⟨goals ++ [_], congrArg some (addGoals_addGoals p _ _), ?_⟩
      refine List.forall_mem_append.mpr ⟨solved, List.forall_mem_singleton.mpr ⟨?_, ?_, ?_⟩⟩
      · exact beyond.equates_getD normalizing
      · exact separates_getD_empty apartLeft.last
      · exact separates_getD_empty apartRight.last

end Ordered

section Unordered

theorem eq_of_key {a b : Entry Term} (other : kind ≠ .map) (shape : kind.checkShape a = .ok ())
    (shape' : kind.checkShape b = .ok ()) (same : a.key = b.key) : a = b := by
  cases a with
  | element item =>
    cases b with
    | element item' => exact congrArg Entry.element same
    | binding key value => simp [Kind.checkShape, other] at shape'
  | binding key value => simp [Kind.checkShape, other] at shape

private theorem entryGoals_isSome {a b : Entry Term} (shape : kind.checkShape a = .ok ())
    (shape' : kind.checkShape b = .ok ()) : ∃ goals, Pairing.entryGoals a b = some goals := by
  cases a <;> cases b <;> simp_all [Kind.checkShape, Pairing.entryGoals]

/-- Entries of one shape can always be cancelled against each other. -/
theorem exists_cancel (shapes : ∀ entry ∈ left, kind.checkShape entry = .ok ())
    (shapes' : ∀ entry ∈ right, kind.checkShape entry = .ok ()) :
    ∃ c, Pairing.cancel false left right = some c := by
  induction left generalizing right with
  | nil => exact ⟨_, rfl⟩
  | cons entry rest ih =>
    obtain ⟨shape, later⟩ := List.forall_mem_cons.mp shapes
    rw [Pairing.cancel]
    split
    · next partner others taken =>
      split at taken
      · obtain ⟨_, split⟩ := Pairing.takeKey_eq_some taken
        obtain ⟨goals, made⟩ := entryGoals_isSome shape (shapes' partner (split.mem_iff.mpr (by simp)))
        obtain ⟨c, deeper⟩ := ih later fun entry member =>
          shapes' entry (split.mem_iff.mpr (List.mem_cons_of_mem _ member))
        exact ⟨_, by rw [made, deeper]; rfl⟩
      · cases taken
    · obtain ⟨c, deeper⟩ := ih later shapes'
      exact ⟨_, by rw [deeper]; rfl⟩

/-- Entries with one key that the fold puts into the same collection are made equal by it. -/
theorem map_eq_of_key {entries : List (Entry Term)} {a b : Entry Term}
    (distinct : kind.Distinct entries) (shape : kind.checkShape a = .ok ())
    (shape' : kind.checkShape b = .ok ()) (member : a.map (fold algebra) ∈ entries)
    (member' : b.map (fold algebra) ∈ entries) (same : a.key = b.key) :
    a.map (fold algebra) = b.map (fold algebra) := by
  by_cases merging : kind.idempotent = true
  · refine distinct.eq_of_key merging member member' ?_
    rw [Entry.key_map, Entry.key_map, same]
  · have other : kind ≠ .map := by
      rintro rfl
      exact merging rfl
    rw [eq_of_key other shape shape' same]

/-- What is cancelled is made equal on both sides, and the rest is settled. -/
theorem Settles.cancel {c : Pairing.Cancelled} (normalizing : algebra.Normalizing)
    (unordered : kind.ordered = false) (shapes : ∀ entry ∈ left, kind.checkShape entry = .ok ())
    (shapes' : ∀ entry ∈ right, kind.checkShape entry = .ok ())
    (cancelled : Pairing.cancel false left right = some c)
    (settles : Settles algebra (.collection kind left leftFrame, .collection kind right rightFrame)) :
    (∀ goal ∈ c.goals, Settles algebra goal) ∧
      Settles algebra (.collection kind c.left leftFrame, .collection kind c.right rightFrame) := by
  have same := settles.reconciles normalizing
  obtain ⟨_, apartLeft, apartRight⟩ := settles
  have distinct : kind.Distinct (algebra.spread kind left leftFrame) := apartLeft.here
  have distinct' : kind.Distinct (algebra.spread kind right rightFrame) := apartRight.here
  obtain ⟨pairs, spec⟩ := Pairing.exists_cancels cancelled
  have inside : ∀ pair ∈ pairs, pair.1 ∈ left ∧ pair.2 ∈ right := fun pair member =>
    ⟨spec.left.mem_iff.mpr (List.mem_append_left _ (List.mem_map_of_mem member)),
      spec.right.mem_iff.mpr (List.mem_append_left _ (List.mem_map_of_mem member))⟩
  have equal : ∀ pair ∈ pairs, pair.1.map (fold algebra) = pair.2.map (fold algebra) := by
    intro pair member
    obtain ⟨here, there⟩ := inside pair member
    refine map_eq_of_key distinct (shapes _ here) (shapes' _ there) ?_ ?_ (spec.keys pair member).1
    · rw [Algebra.spread_eq]
      exact List.mem_append_left _ (List.mem_map_of_mem here)
    · refine (same.perm distinct distinct').mem_iff.mpr ?_
      rw [Algebra.spread_eq]
      exact List.mem_append_left _ (List.mem_map_of_mem there)
  constructor
  · intro goal member
    obtain ⟨pair, present, first, second⟩ := spec.mem_goals member
    have keys : ∀ pair ∈ pairs, pair.1.key.fold algebra = pair.2.key.fold algebra :=
      fun pair present => congrArg _ (spec.keys pair present).1
    exact ⟨(spec.solved_iff keys).mpr equal goal member,
      apartLeft.parts _ (inside pair present).1 _ first,
      apartRight.parts _ (inside pair present).2 _ second⟩
  · have inLeft : c.left.Subperm left :=
      (List.sublist_append_right _ _).subperm.trans spec.left.symm.subperm
    have inRight : c.right.Subperm right :=
      (List.sublist_append_right _ _).subperm.trans spec.right.symm.subperm
    refine ⟨(reconciles_iff_equates normalizing).mp ?_, apartLeft.subperm inLeft,
      apartRight.subperm inRight⟩
    have arranged {entries parts : List (Entry Term)} {frame : Option Term}
        (perm : entries.Perm parts) :
        normalized kind (parts.map (Entry.map (fold algebra))) frame =
          normalized kind (entries.map (Entry.map (fold algebra))) frame :=
      normalized_congr _ (Kind.same_of_perm unordered (perm.symm.map _))
    have spread {entries parts : List (Entry Term)} {frame : Option Term} (perm : entries.Perm parts) :
        (algebra.spread kind entries frame).Perm (algebra.spread kind parts frame) := by
      rw [Algebra.spread_eq, Algebra.spread_eq kind parts]
      exact (perm.map _).append_right _
    refine Reconciles.cancel (distinct.perm (spread spec.left)) (distinct'.perm (spread spec.right)) ?_ ?_
    · rw [List.map_map, List.map_map]
      exact List.map_congr_left equal
    · rw [Reconciles, arranged spec.left, arranged spec.right]
      exact same

/-- How a pairing fits a fold: it makes the paired entries equal, and each frame has what is left of
the other side, beside what both frames have in common. -/
structure Fits (algebra : Algebra Term) (kind : Kind) (left right : List (Entry Term))
    (leftFrame rightFrame : Option Term) (pairing : List Nat × List Nat)
    (common : List (Entry Term)) : Prop where
  paired : ∀ pair ∈ Pairing.paired left right pairing,
    pair.1.map (fold algebra) = pair.2.map (fold algebra)
  takesRight : (splice kind [] (leftFrame.map (fold algebra))).1.Perm
    ((Pairing.remaining right pairing.2).map (Entry.map (fold algebra)) ++ common)
  takesLeft : (splice kind [] (rightFrame.map (fold algebra))).1.Perm
    ((Pairing.remaining left pairing.1).map (Entry.map (fold algebra)) ++ common)
  opened : (splice kind [] (leftFrame.map (fold algebra))).2 =
    (splice kind [] (rightFrame.map (fold algebra))).2

theorem map_fst_paired {pairing : List Nat × List Nat}
    (injection : Pairing.Injection left.length right.length pairing) :
    (Pairing.paired left right pairing).map Prod.fst = Pairing.select left pairing.1 ∧
      (Pairing.paired left right pairing).map Prod.snd = Pairing.select right pairing.2 := by
  have first := Pairing.length_select injection.below_left
  have second := Pairing.length_select injection.below
  have level := injection.length
  exact ⟨List.map_fst_zip (by omega), List.map_snd_zip (by omega)⟩

/-- The pairings that are tried are those that leave nothing over where there is no frame. -/
theorem mem_candidates {pairing : List Nat × List Nat}
    {candidates : Enumeration (List Nat × List Nat)}
    (made : Problem.pairings left.length right.length leftFrame.isSome rightFrame.isSome =
      some candidates)
    (injection : Pairing.Injection left.length right.length pairing)
    (usedLeft : rightFrame = none → pairing.1.length = left.length)
    (usedRight : leftFrame = none → pairing.2.length = right.length) :
    pairing ∈ candidates.toList := by
  have level := injection.length
  have belowLeft : pairing.1.length ≤ left.length := by
    simpa using injection.left.length_le
  have belowRight : pairing.2.length ≤ right.length := by
    have positions : pairing.2.Subperm (List.range right.length) :=
      List.subperm_of_subset injection.right fun position member =>
        List.mem_range.mpr (injection.below position member)
    simpa using positions.length_le
  cases leftFrame <;> cases rightFrame <;> simp only [Option.isSome] at made <;>
    unfold Problem.pairings at made <;> dsimp only at made <;>
    simp only [reduceCtorEq, false_implies, true_implies] at usedLeft usedRight
  · rw [if_neg (by omega)] at made
    split at made
    · cases made
    · cases made
      exact Pairing.mem_injections_iff.mpr ⟨injection, by omega, by omega⟩
  · rw [if_neg (by omega)] at made
    cases made
    exact Pairing.mem_injections_iff.mpr ⟨injection, by omega, by omega⟩
  · rw [if_neg (by omega)] at made
    cases made
    exact Pairing.mem_injections_iff.mpr ⟨injection, by omega, by omega⟩
  · split at made
    · cases made
    · cases made
      exact Pairing.mem_injections_iff.mpr ⟨injection, by omega, by omega⟩

/-- Some pairing that is tried fits a fold that makes the collections equal. -/
theorem Settles.exists_pairing {candidates : Enumeration (List Nat × List Nat)}
    (normalizing : algebra.Normalizing)
    (settles : Settles algebra (.collection kind left leftFrame, .collection kind right rightFrame))
    (made : Problem.pairings left.length right.length leftFrame.isSome rightFrame.isSome =
      some candidates) :
    ∃ pairing ∈ (Pairing.representatives left right candidates).toList, ∃ common,
      Fits algebra kind left right leftFrame rightFrame pairing common := by
  have same := settles.reconciles normalizing
  have perm := same.perm settles.left.here settles.right.here
  rw [Algebra.spread_eq, Algebra.spread_eq kind right] at perm
  obtain ⟨_, opened⟩ := normalized_eq_iff.mp same
  rw [splice_append kind (left.map _), splice_append kind (right.map _)] at opened
  obtain ⟨chosen, rest, chosen', rest', common, inside, splitLeft, splitRight, equal, takesRight,
    takesLeft⟩ := Pairing.exists_common _ perm
  obtain ⟨positions, ascending, selected⟩ := Pairing.exists_ascending inside
  obtain ⟨positions', size, distinct, below, selected'⟩ := Pairing.exists_positions splitRight.symm
  have level : chosen.length = chosen'.length := by simpa using congrArg List.length equal
  have belowLeft : ∀ position ∈ positions, position < left.length := fun position member =>
    List.mem_range.mp (ascending.subset member)
  have sizeLeft : positions.length = chosen.length := by
    rw [← selected, Pairing.length_select belowLeft]
  have injection : Pairing.Injection left.length right.length (positions, positions') :=
    ⟨by dsimp only; omega, ascending, distinct, below⟩
  have member : (positions, positions') ∈ candidates.toList := by
    refine mem_candidates made injection (fun none => ?_) fun none => ?_
    · rw [none] at takesLeft
      obtain ⟨spare, _⟩ : rest = [] ∧ common = [] := by simpa using takesLeft.symm.eq_nil
      rw [splitLeft.length_eq, spare, List.append_nil]
      exact sizeLeft
    · rw [none] at takesRight
      obtain ⟨spare, _⟩ : rest' = [] ∧ common = [] := by simpa using takesRight.symm.eq_nil
      rw [splitRight.length_eq, spare, List.append_nil]
      exact size
  obtain ⟨pairing, listed, perm⟩ := @Pairing.exists_representative left right _ _ member
  have fit := (injection_of_mem_pairings made
    ((Pairing.representatives_sublist left right candidates).subset listed)).1
  have remains {items used spare : List (Entry Term)} {taken : List Nat} (nodup : taken.Nodup)
      (within : ∀ position ∈ taken, position < items.length) (split : items.Perm (used ++ spare))
      (picked : (Pairing.select items taken).Perm used) :
      (Pairing.remaining items taken).Perm spare := by
    have whole := (Pairing.select_append_remaining_perm nodup within).trans split
    exact (List.perm_append_left_iff used).mp ((picked.symm.append_right _).trans whole)
  have remainsLeft : (Pairing.remaining left pairing.1).Perm rest := by
    refine remains fit.nodup_left fit.below_left splitLeft ?_
    rw [← (map_fst_paired fit).1, ← selected, ← (map_fst_paired injection).1]
    exact perm.map Prod.fst
  have remainsRight : (Pairing.remaining right pairing.2).Perm rest' := by
    refine remains fit.right fit.below splitRight ?_
    rw [← (map_fst_paired fit).2, ← selected', ← (map_fst_paired injection).2]
    exact perm.map Prod.snd
  refine ⟨pairing, listed, common, fun pair paired => ?_, ?_, ?_, opened⟩
  · have aligned : (Pairing.select left positions).length = (Pairing.select right positions').length := by
      rw [selected, selected', level]
    rw [← selected, ← selected'] at equal
    exact (Pairing.map_eq_iff_forall_zip aligned).mp equal pair (perm.mem_iff.mp paired)
  · exact takesRight.trans ((remainsRight.symm.map _).append_right common)
  · exact takesLeft.trans ((remainsLeft.symm.map _).append_right common)

/-- The entries of a frame may be listed in any order. -/
theorem eq_normalized_of_perm {term : Term} {entries : List (Entry Term)} (canonical : term.Canonical)
    (unordered : kind.ordered = false) (perm : (splice kind [] (some term)).1.Perm entries) :
    term = normalized kind entries (splice kind [] (some term)).2 := by
  rw [splice_some, List.nil_append] at perm ⊢
  rw [canonical.eq_normalized_iff, splice_of_kind fun rest => kind?_of_mem_contents]
  exact ⟨Kind.same_of_perm unordered perm, rfl⟩

/-- Where one of the frames is missing, the frames have nothing in common. -/
theorem Fits.common_eq_nil {pairing : List Nat × List Nat} {common : List (Entry Term)}
    (fits : Fits algebra kind left right leftFrame rightFrame pairing common)
    (missing : leftFrame = none ∨ rightFrame = none) :
    common = [] ∧ (splice kind [] (leftFrame.map (fold algebra))).2 = none := by
  rcases missing with rfl | rfl
  · obtain ⟨_, bare⟩ : _ ∧ common = [] := by simpa using fits.takesRight.symm.eq_nil
    exact ⟨bare, rfl⟩
  · obtain ⟨_, bare⟩ : _ ∧ common = [] := by simpa using fits.takesLeft.symm.eq_nil
    exact ⟨bare, fits.opened⟩

end Unordered

end Unification

end Reach
