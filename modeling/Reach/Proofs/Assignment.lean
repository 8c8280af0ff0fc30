import Reach.Matching
import Reach.Proofs.Pairing
import Reach.Proofs.WellSorted

/-!
What it means for a substitution to match, and which assignments of entries to entries it induces
in a set, map or bag. Entries with a ground key go to the entry with that key; the others go where
exactly one of the assignments that are tried sends them.
-/

namespace Reach.Matching

/-- At a set or map, the images of the entries differ from each other and from what the frame
brings. -/
def apartAt (s : Subst) : Term → Prop
  | .collection kind entries frame =>
    kind.idempotent = true →
      (entries.map (Entry.map s.apply)).Nodup ∧
        ∀ rest ∈ frame, ∀ entry ∈ entries,
          entry.map s.apply ∉ (Term.contents kind (s.apply rest)).1
  | _ => True

/-- The substitution merges no two entries of a set or map. -/
abbrev Apart (s : Subst) : Term → Prop :=
  Term.Everywhere (apartAt s)

/-- The substitution takes the pattern to the subject without merging entries. -/
def Solves (s : Subst) (goal : Goal) : Prop :=
  s.apply goal.1 = goal.2 ∧ Apart s goal.1

section Collections

variable {s : Subst} {kind : Kind} {entries entries' : List (Entry Term)} {frame frame' : Option Term}

/-- Ground terms are taken to themselves, and their entries are distinct already. -/
theorem solves_ground {term : Term} (canonical : term.Canonical) (ground : term.ground = true) :
    s.apply term = term ∧ Apart s term := by
  induction canonical with
  | var v => cases ground
  | token sort value => exact ⟨Subst.apply_token_eq s sort value, .intro trivial nofun⟩
  | app label sort parts ih =>
    rename_i args
    rw [Term.ground_app, List.all_eq_true] at ground
    have same : args.map s.apply = args :=
      (List.map_congr_left fun arg member => (ih arg member (ground arg member)).1).trans
        (List.map_id args)
    refine ⟨by rw [Subst.apply_app_eq, same], Term.Everywhere.app_iff.mpr ⟨trivial, ?_⟩⟩
    exact fun arg member => (ih arg member (ground arg member)).2
  | collection parts rest arranged ihEntries ihFrame =>
    rename_i kind entries frame
    have whole := Term.Canonical.collection parts rest arranged
    simp only [Term.ground_collection, Bool.and_eq_true, List.all_eq_true,
      Option.mem_toList] at ground
    obtain ⟨groundEntries, groundFrame⟩ := ground
    have sameEntry : ∀ entry ∈ entries, entry.map s.apply = entry := fun entry member =>
      Entry.map_eq_self fun part inside =>
        (ihEntries entry member part inside (groundEntries entry member part inside)).1
    have sameEntries : entries.map (Entry.map s.apply) = entries :=
      (List.map_congr_left sameEntry).trans (List.map_id entries)
    have sameFrame : ∀ last ∈ frame, s.apply last = last := fun last member =>
      (ihFrame last member (groundFrame last member)).1
    have sameRest : frame.map s.apply = frame := by
      cases frame with
      | none => rfl
      | some last => exact congrArg some (sameFrame last rfl)
    refine ⟨?_, Term.Everywhere.collection_iff.mpr ⟨fun merging => ⟨?_, ?_⟩, ?_, ?_⟩⟩
    · rw [Subst.apply_collection_eq s whole, sameEntries, sameRest, arranged]
    · rw [sameEntries]
      exact whole.nodup merging
    · intro last member entry _
      rw [sameFrame last member, Term.contents_of_kind (whole.kind?_of_frame last member)]
      exact List.not_mem_nil
    · exact fun entry member part inside =>
        (ihEntries entry member part inside (groundEntries entry member part inside)).2
    · exact fun last member => (ihFrame last member (groundFrame last member)).2

/-- What the image of a frame brings: entries, and the frame that is left. -/
def brought (s : Subst) (kind : Kind) (frame : Option Term) : List (Entry Term) × Option Term :=
  Term.splice kind [] (frame.map s.apply)

theorem nodup_brought (images : s.Canonical) (canonical : ∀ rest ∈ frame, rest.Canonical)
    (merging : kind.idempotent = true) : (brought s kind frame).1.Nodup := by
  cases frame with
  | none => exact .nil
  | some rest =>
    rw [brought, Option.map_some, Term.splice_some, List.nil_append]
    exact (images.apply (canonical rest rfl)).nodup_contents merging

theorem apply_collection_eq_iff (canonical : (Term.collection kind entries frame).Canonical)
    (canonical' : (Term.collection kind entries' frame').Canonical) :
    s.apply (.collection kind entries frame) = .collection kind entries' frame' ↔
      kind.Same (entries.map (Entry.map s.apply) ++ (brought s kind frame).1) entries' ∧
        (brought s kind frame).2 = frame' := by
  have split : Term.splice kind (entries.map (Entry.map s.apply)) (frame.map s.apply) =
      (entries.map (Entry.map s.apply) ++ (brought s kind frame).1, (brought s kind frame).2) := by
    cases frame with
    | none => simp [brought]
    | some rest => simp [brought]
  rw [Subst.apply_collection_eq s canonical, ← canonical'.normalized_eq, Term.normalized_eq_iff, split,
    canonical'.splice_eq]

/-- The images of the entries of a set or map differ from each other and from what the frame brings if
all of these together do not repeat. -/
theorem apartAt_iff_nodup (images : s.Canonical) (canonical : (Term.collection kind entries frame).Canonical)
    (merging : kind.idempotent = true) :
    apartAt s (.collection kind entries frame) ↔
      (entries.map (Entry.map s.apply) ++ (brought s kind frame).1).Nodup := by
  have bare : ∀ rest ∈ frame, (brought s kind frame).1 = (Term.contents kind (s.apply rest)).1 := by
    rintro rest ⟨⟩
    simp [brought]
  have distinct := nodup_brought images canonical.of_frame merging
  rw [List.nodup_append]
  simp only [apartAt, merging, forall_const, distinct, true_and]
  refine and_congr_right fun _ => ?_
  cases frame with
  | none => simp [brought]
  | some rest =>
    rw [bare rest rfl]
    constructor
    · rintro away _ member entry inside rfl
      obtain ⟨source, present, rfl⟩ := List.mem_map.mp member
      exact away rest rfl source present inside
    · rintro away _ ⟨⟩ entry member inside
      exact away _ (List.mem_map_of_mem member) _ inside rfl

/-- In sets, maps and bags the entries go to distinct entries and the frame takes the others. -/
theorem apply_unordered_iff (unordered : kind.ordered = false) (images : s.Canonical)
    (canonical : (Term.collection kind entries frame).Canonical)
    (canonical' : (Term.collection kind entries' frame').Canonical) :
    s.apply (.collection kind entries frame) = .collection kind entries' frame' ∧
        apartAt s (.collection kind entries frame) ↔
      (entries.map (Entry.map s.apply) ++ (brought s kind frame).1).Perm entries' ∧
        (brought s kind frame).2 = frame' := by
  rw [apply_collection_eq_iff canonical canonical']
  by_cases merging : kind.idempotent = true
  · rw [apartAt_iff_nodup images canonical merging]
    constructor
    · rintro ⟨⟨same, left⟩, distinct⟩
      exact ⟨(Kind.same_iff_perm unordered fun _ =>
        ⟨distinct, canonical'.nodup merging⟩).mp same, left⟩
    · rintro ⟨perm, left⟩
      have distinct := perm.nodup_iff.mpr (canonical'.nodup merging)
      exact ⟨⟨Kind.same_of_perm unordered perm, left⟩, distinct⟩
  · have countable : kind.idempotent = false := by simpa using merging
    have trivial : apartAt s (.collection kind entries frame) := fun holds => absurd holds merging
    simp only [trivial, and_true]
    exact and_congr_left fun _ => ⟨Kind.Same.perm countable, Kind.same_of_perm unordered⟩

end Collections

section Assignments

variable {s : Subst} {entries left right rest more : List (Entry Term)} {positions : List Nat}

/-- Where ground keys are unambiguous, an entry goes to the entry with its key. -/
theorem map_eq_of_key (keyed : Entry.Keyed right) {a b : Entry Term} (ground : a.key.ground = true)
    (canonical : a.key.Canonical) (same : a.key = b.key) (image : a.map s.apply ∈ right)
    (member : b ∈ right) : a.map s.apply = b := by
  have key : (a.map s.apply).key = a.key := by
    rw [Entry.key_map, (solves_ground canonical ground).1]
  exact keyed _ image _ member (key.trans same) (by rw [key]; exact ground)

/-- A ground key of the pattern that the subject lacks leaves no match. -/
theorem cancel_isSome (keyed : Entry.Keyed right)
    (canonical : ∀ entry ∈ left, ∀ part ∈ entry.parts, part.Canonical)
    (perm : (left.map (Entry.map s.apply) ++ more).Perm right) :
    (Pairing.cancel true left right).isSome = true := by
  induction left generalizing right more with
  | nil => rfl
  | cons entry rest ih =>
    obtain ⟨canonicalEntry, canonicalRest⟩ := List.forall_mem_cons.mp canonical
    have member : entry.map s.apply ∈ right := perm.mem_iff.mp (by simp)
    rw [Pairing.cancel]
    by_cases ground : entry.key.ground = true
    · have key : (entry.map s.apply).key = entry.key := by
        rw [Entry.key_map, (solves_ground (canonicalEntry _ entry.key_mem_parts) ground).1]
      obtain ⟨⟨partner, others⟩, taken⟩ := Option.isSome_iff_exists.mp (Pairing.takeKey_isSome member)
      rw [key] at taken
      obtain ⟨same, split⟩ := Pairing.takeKey_eq_some taken
      have image := map_eq_of_key keyed ground (canonicalEntry _ entry.key_mem_parts) same.symm member
        (split.mem_iff.mpr (by simp))
      have remainder : (rest.map (Entry.map s.apply) ++ more).Perm others := by
        have whole := perm.trans split
        rw [List.map_cons, image, List.cons_append] at whole
        exact whole.cons_inv
      have shape : (Pairing.entryGoals entry partner).isSome = true := by
        have fit : entry.map s.apply = partner.map id := by rw [image, Entry.map_id]
        obtain ⟨goals, made, _⟩ := Pairing.map_eq_map_iff.mp fit
        rw [made]
        rfl
      have later := ih (keyed.subset fun entry inside => split.mem_iff.mpr (by simp [inside]))
        canonicalRest remainder
      obtain ⟨goals, made⟩ := Option.isSome_iff_exists.mp shape
      obtain ⟨c, found⟩ := Option.isSome_iff_exists.mp later
      simp [ground, taken, made, found]
    · have moved : (rest.map (Entry.map s.apply) ++ entry.map s.apply :: more).Perm right :=
        List.perm_middle.trans perm
      have later := ih keyed canonicalRest moved
      simp [ground, later]

/-- Cancelling ground keys keeps the matches: the values of the paired keys have to match, and the
other entries have to find their partners among the entries that are left. -/
theorem perm_iff_cancel (keyed : Entry.Keyed right)
    (canonical : ∀ entry ∈ left, ∀ part ∈ entry.parts, part.Canonical) :
    (left.map (Entry.map s.apply) ++ more).Perm right ↔
      ∃ c, Pairing.cancel true left right = some c ∧ (∀ goal ∈ c.goals, s.apply goal.1 = goal.2) ∧
        (c.left.map (Entry.map s.apply) ++ more).Perm c.right := by
  have step : ∀ c, Pairing.cancel true left right = some c →
      ((left.map (Entry.map s.apply) ++ more).Perm right ↔
        (∀ goal ∈ c.goals, s.apply goal.1 = goal.2) ∧
          (c.left.map (Entry.map s.apply) ++ more).Perm c.right) := by
    intro c cancelled
    obtain ⟨pairs, spec⟩ := Pairing.exists_cancels cancelled
    have inside : ∀ pair ∈ pairs, pair.1 ∈ left ∧ pair.2 ∈ right := fun pair member =>
      ⟨spec.left.mem_iff.mpr (List.mem_append_left _ (List.mem_map_of_mem member)),
        spec.right.mem_iff.mpr (List.mem_append_left _ (List.mem_map_of_mem member))⟩
    have fixed : ∀ pair ∈ pairs, s.apply pair.1.key = pair.2.key := fun pair member => by
      have part := canonical _ (inside pair member).1 _ pair.1.key_mem_parts
      rw [(solves_ground part (spec.keys pair member).2).1, (spec.keys pair member).1]
    have solved := spec.solved_iff (f := s.apply) (g := id) fixed
    simp only [id, Entry.map_id] at solved
    rw [solved]
    constructor
    · intro perm
      have same : ∀ pair ∈ pairs, pair.1.map s.apply = pair.2 := by
        intro pair member
        have part := canonical _ (inside pair member).1 _ pair.1.key_mem_parts
        have found := perm.mem_iff.mp (List.mem_append_left _ (List.mem_map_of_mem (inside pair member).1))
        exact map_eq_of_key keyed (spec.keys pair member).2 part (spec.keys pair member).1 found
          (inside pair member).2
      exact ⟨same, (spec.perm_iff same).mp perm⟩
    · rintro ⟨same, perm⟩
      exact (spec.perm_iff same).mpr perm
  constructor
  · intro perm
    obtain ⟨c, cancelled⟩ := Option.isSome_iff_exists.mp (cancel_isSome keyed canonical perm)
    exact ⟨c, cancelled, (step c cancelled).mp perm⟩
  · rintro ⟨c, cancelled, solved⟩
    exact (step c cancelled).mpr solved

theorem toList_assignments (left right : List (Entry Term)) :
    (Problem.assignments left right).toList =
      (Pairing.representatives left right
        ((Pairing.arrangements left.length (List.range right.length)).map
          (List.range left.length, ·))).toList.map Prod.snd := by
  rw [Problem.assignments, Enumeration.toList_map]

theorem mem_pairings {pairing : List Nat × List Nat} :
    pairing ∈ ((Pairing.arrangements left.length (List.range right.length)).map
        (List.range left.length, ·)).toList ↔
      pairing.1 = List.range left.length ∧ pairing.2.length = left.length ∧ pairing.2.Nodup ∧
        ∀ position ∈ pairing.2, position < right.length := by
  rw [Enumeration.toList_map, List.mem_map]
  simp only [Pairing.mem_arrangements_iff List.nodup_range, List.mem_range]
  constructor
  · rintro ⟨positions, shape, rfl⟩
    exact ⟨rfl, shape⟩
  · rintro ⟨all, shape⟩
    exact ⟨pairing.2, shape, by rw [← all]⟩

/-- Assignments send the entries to as many distinct positions. -/
theorem of_mem_assignments (member : positions ∈ (Problem.assignments left right).toList) :
    positions.length = left.length ∧ positions.Nodup ∧
      ∀ position ∈ positions, position < right.length := by
  rw [toList_assignments] at member
  obtain ⟨pairing, kept, rfl⟩ := List.mem_map.mp member
  exact (mem_pairings.mp ((Pairing.representatives_sublist left right _).subset kept)).2

/-- Images that are found in the subject are found by some assignment. -/
theorem perm_iff_assignment (f : Entry Term → Entry Term) :
    (left.map f ++ more).Perm right ↔
      ∃ positions ∈ (Problem.assignments left right).toList,
        left.map f = Pairing.select right positions ∧
          more.Perm (Pairing.remaining right positions) := by
  constructor
  · intro perm
    obtain ⟨positions, size, distinct, inside, selected⟩ := Pairing.exists_positions perm
    rw [List.length_map] at size
    obtain ⟨⟨all, chosen⟩, kept, same⟩ := @Pairing.exists_representative left right
      (List.range left.length, positions) _ (mem_pairings.mpr ⟨rfl, size, distinct, inside⟩)
    obtain ⟨rfl, chosenSize, chosenDistinct, chosenInside⟩ :=
      mem_pairings.mp ((Pairing.representatives_sublist left right _).subset kept)
    -- The chosen assignment pairs the same entries, so it pairs each with its image.
    have found : left.map f = (Pairing.select right chosen).map id := by
      refine (Pairing.map_eq_iff_forall_zip ?_).mpr fun pair member => ?_
      · rw [Pairing.length_select chosenInside]
        exact chosenSize.symm
      · rw [Pairing.paired, Pairing.paired, Pairing.select_range, selected] at same
        have among := same.mem_iff.mp member
        have images := (Pairing.map_eq_iff_forall_zip (f := f) (g := id) (List.length_map f).symm).mp
          (List.map_id (left.map f)).symm
        exact images pair among
    rw [List.map_id] at found
    refine ⟨chosen, ?_, found, ?_⟩
    · rw [toList_assignments]
      exact List.mem_map_of_mem kept
    · have whole := perm.trans (Pairing.select_append_remaining_perm chosenDistinct chosenInside).symm
      rw [found, List.perm_append_left_iff] at whole
      exact whole
  · rintro ⟨positions, member, found, perm⟩
    obtain ⟨_, distinct, inside⟩ := of_mem_assignments member
    rw [found]
    exact (perm.append_left _).trans (Pairing.select_append_remaining_perm distinct inside)

/-- Different assignments find different images. -/
theorem assignments_pairwise (left right : List (Entry Term)) :
    (Problem.assignments left right).toList.Pairwise fun first second =>
      Pairing.select right first ≠ Pairing.select right second := by
  rw [toList_assignments, List.pairwise_map]
  by_cases repeated : left.Nodup ∧ right.Nodup
  · rw [Pairing.representatives, if_pos repeated, Enumeration.toList_map, List.pairwise_map]
    have distinct := Pairing.nodup_arrangements left.length (List.nodup_range (n := right.length))
    refine distinct.imp_of_mem fun {first second} memberFirst memberSecond differ same => differ ?_
    obtain ⟨_, _, inside⟩ := (Pairing.mem_arrangements_iff List.nodup_range).mp memberFirst
    obtain ⟨_, _, inside'⟩ := (Pairing.mem_arrangements_iff List.nodup_range).mp memberSecond
    simp only [List.mem_range] at inside inside'
    rw [← Pairing.map_idxOf_select repeated.2 inside, ← Pairing.map_idxOf_select repeated.2 inside']
    exact congrArg _ same
  · have marks := Pairing.representatives_pairwise repeated
      ((Pairing.arrangements left.length (List.range right.length)).map (List.range left.length, ·))
    refine marks.imp_of_mem fun {first second} memberFirst memberSecond differ same => differ ?_
    obtain ⟨all, _⟩ := mem_pairings.mp
      ((Pairing.representatives_sublist left right _).subset memberFirst)
    obtain ⟨all', _⟩ := mem_pairings.mp
      ((Pairing.representatives_sublist left right _).subset memberSecond)
    rw [Pairing.paired, Pairing.paired, all, all', same]

end Assignments

end Reach.Matching
