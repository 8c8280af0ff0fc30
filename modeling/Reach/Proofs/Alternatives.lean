import Reach.Proofs.Assignment

/-!
When the turn of two collections comes, matching them is replaced by one of several lists of goals.
A substitution matches the collections exactly when it solves all goals of one alternative, and no
substitution does so for two of them.
-/

namespace Reach.Matching

namespace Deferred

/-- The two collections as one goal. -/
def goal (d : Deferred) : Goal :=
  (.collection d.kind d.pattern d.patternFrame, .collection d.kind d.subject d.subjectFrame)

/-- The goals that give the pattern's frame what its entries did not take. -/
def restGoals (d : Deferred) (rest : List (Entry Term)) : Option (List Goal) :=
  match d.patternFrame with
  | some frame => some [(frame, .normalized d.kind rest d.subjectFrame)]
  | none => if rest.isEmpty && d.subjectFrame.isNone then some [] else none

/-- The goals by which the entries of the pattern match these entries and its frame the rest. -/
def pairGoals (d : Deferred) (pairs : List (Entry Term × Entry Term)) (rest : List (Entry Term)) :
    Option (List Goal) := do
  let goals ← Pairing.allGoals pairs
  let last ← d.restGoals rest
  return goals ++ last

/-- The lists of goals one of which has to be solved. -/
def alternatives (d : Deferred) : List (List Goal) :=
  if d.kind.ordered then
    if d.pattern.length > d.subject.length then []
    else
      (d.pairGoals (d.pattern.zip d.subject) (d.subject.drop d.pattern.length)).toList
  else
    match Pairing.cancel true d.pattern d.subject with
    | none => []
    | some c =>
      (Problem.assignments c.left c.right).toList.filterMap fun positions =>
        (d.pairGoals (c.left.zip (Pairing.select c.right positions))
          (Pairing.remaining c.right positions)).map (c.goals ++ ·)

end Deferred

namespace Problem

variable {p : Problem} {d : Deferred} {left right rest : List (Entry Term)}

theorem addGoals_addGoals (first second : List Goal) :
    (p.addGoals first).addGoals second = p.addGoals (first ++ second) := by
  simp [addGoals]

theorem bindRest_eq (p : Problem) (d : Deferred) (rest : List (Entry Term)) :
    p.bindRest d rest = (d.restGoals rest).map p.addGoals := by
  unfold bindRest Deferred.restGoals
  cases d.patternFrame with
  | some frame => rfl
  | none =>
    dsimp only
    split
    · simp [addGoals]
    · rfl

theorem pair_eq (p : Problem) (d : Deferred) (pairs : List (Entry Term × Entry Term))
    (rest : List (Entry Term)) :
    ((Pairing.allGoals pairs).bind fun goals => (p.addGoals goals).bindRest d rest) =
      (d.pairGoals pairs rest).map p.addGoals := by
  unfold Deferred.pairGoals
  cases Pairing.allGoals pairs with
  | none => rfl
  | some goals =>
    simp only [Option.bind_some, bindRest_eq]
    cases d.restGoals rest with
    | none => rfl
    | some last => simp [addGoals_addGoals]

private theorem assign_eq (p : Problem) (d : Deferred) (left right : List (Entry Term))
    (positions : List Nat) :
    p.assign d left right positions =
      (d.pairGoals (left.zip (Pairing.select right positions))
        (Pairing.remaining right positions)).map p.addGoals :=
  pair_eq p d _ _

theorem length_remaining {positions : List Nat} (distinct : positions.Nodup)
    (inside : ∀ position ∈ positions, position < right.length) :
    positions.length + (Pairing.remaining right positions).length = right.length := by
  have perm := Pairing.select_append_remaining_perm distinct inside
  rw [← perm.length_eq, List.length_append, Pairing.length_select inside]

/-- Without a frame no assignment may leave entries over. -/
theorem pairGoals_eq_none {positions : List Nat} (bare : d.patternFrame = none)
    (fewer : left.length < right.length)
    (member : positions ∈ (assignments left right).toList) (pairs : List (Entry Term × Entry Term)) :
    d.pairGoals pairs (Pairing.remaining right positions) = none := by
  obtain ⟨size, distinct, inside⟩ := of_mem_assignments member
  have split := length_remaining distinct inside
  have left : Pairing.remaining right positions ≠ [] := by
    intro empty
    rw [empty, List.length_nil] at split
    omega
  have none : d.restGoals (Pairing.remaining right positions) = none := by
    simp [Deferred.restGoals, bare, left]
  simp [Deferred.pairGoals, none]

private theorem assignments_eq_nil (more : right.length < left.length) :
    (assignments left right).toList = [] := by
  refine List.eq_nil_iff_forall_not_mem.mpr fun positions member => ?_
  obtain ⟨size, distinct, inside⟩ := of_mem_assignments member
  have split := length_remaining distinct inside
  omega

private theorem toList_assignments_nil (right : List (Entry Term)) :
    (assignments [] right).toList = [[]] := by
  have single : (assignments [] right).toList ≠ [] := by
    have same : (([] : List (Entry Term)).map id ++ right).Perm right := .refl _
    obtain ⟨positions, member, _⟩ := (perm_iff_assignment id).mp same
    exact List.ne_nil_of_mem member
  have short : (assignments [] right).toList.Sublist [[]] := by
    rw [toList_assignments]
    exact (Pairing.representatives_sublist [] right _).map Prod.snd
  cases shape : (assignments [] right).toList with
  | nil => exact absurd shape single
  | cons first rest =>
    rw [shape] at short
    exact short.eq_of_length_le (by simp)

theorem expandOrdered_eq (p : Problem) (d : Deferred)
    (fits : ¬d.pattern.length > d.subject.length) :
    p.expandOrdered d =
      (d.pairGoals (d.pattern.zip d.subject) (d.subject.drop d.pattern.length)).map p.addGoals := by
  rw [← pair_eq, expandOrdered, if_neg fits]
  rfl

private theorem expandUnordered_eq (p : Problem) (d : Deferred) {c : Pairing.Cancelled}
    (cancelled : Pairing.cancel true d.pattern d.subject = some c) :
    (p.expandUnordered d).toList =
      ((assignments c.left c.right).toList.filterMap fun positions =>
        d.pairGoals (c.left.zip (Pairing.select c.right positions))
          (Pairing.remaining c.right positions)).map (p.addGoals c.goals).addGoals := by
  obtain ⟨goals, left, right⟩ := c
  rw [List.map_filterMap]
  simp only [expandUnordered, cancelled]
  split
  · next short =>
    rcases short with more | ⟨bare, fewer⟩
    · rw [assignments_eq_nil more]
      rfl
    · refine (List.filterMap_eq_nil_iff.mpr fun positions member => ?_).symm
      rw [pairGoals_eq_none (Option.isNone_iff_eq_none.mp bare) fewer member]
      rfl
  · split
    · next empty =>
      obtain rfl := List.isEmpty_iff.mp empty
      rw [toList_assignments_nil, bindRest_eq]
      have single : d.pairGoals ([].zip (Pairing.select right [])) (Pairing.remaining right []) =
          d.restGoals right := by
        rw [Pairing.remaining_nil]
        cases made : d.restGoals right <;> simp [Deferred.pairGoals, Pairing.allGoals, made]
      simp only [List.filterMap_cons, single, List.filterMap_nil]
      cases d.restGoals right <;> rfl
    · rw [Enumeration.toList_filterMap]
      exact List.filterMap_congr fun positions _ => assign_eq _ d left right positions

/-- The expansions of a pair of collections are the problem with the goals of each alternative. -/
theorem expand_eq (p : Problem) (d : Deferred) :
    (p.expand d).toList = d.alternatives.map p.addGoals := by
  unfold expand Deferred.alternatives
  split
  · split
    · next long =>
      rw [expandOrdered, if_pos long]
      rfl
    · next fits =>
      rw [expandOrdered_eq p d fits]
      cases d.pairGoals (d.pattern.zip d.subject) (d.subject.drop d.pattern.length) <;> rfl
  · cases cancelled : Pairing.cancel true d.pattern d.subject with
    | none =>
      simp only [expandUnordered, cancelled]
      rfl
    | some c =>
      rw [expandUnordered_eq p d cancelled, List.map_filterMap, List.map_filterMap]
      simp only [Option.map_map]
      congr 1
      funext positions
      congr 1
      funext goals
      exact addGoals_addGoals c.goals goals

end Problem

section Solutions

variable {s : Subst} {d : Deferred} {sig : Signature} {pairs : List (Entry Term × Entry Term)}
  {rest : List (Entry Term)}

theorem solves_allGoals_iff :
    (∃ goals, Pairing.allGoals pairs = some goals ∧ ∀ goal ∈ goals, Solves s goal) ↔
      (∀ pair ∈ pairs, pair.1.map s.apply = pair.2) ∧
        ∀ pair ∈ pairs, ∀ part ∈ pair.1.parts, Apart s part := by
  have images : (∀ pair ∈ pairs, pair.1.map s.apply = pair.2) ↔
      ∃ goals, Pairing.allGoals pairs = some goals ∧ ∀ goal ∈ goals, s.apply goal.1 = goal.2 := by
    have goals := @Pairing.forall_map_eq_map_iff s.apply id pairs
    simpa only [Entry.map_id, id] using goals
  have parts : ∀ goals, Pairing.allGoals pairs = some goals →
      ((∀ goal ∈ goals, Apart s goal.1) ↔ ∀ pair ∈ pairs, ∀ part ∈ pair.1.parts, Apart s part) := by
    intro goals made
    rw [← List.forall_mem_map (f := Prod.fst) (P := Apart s), (Pairing.allGoals_parts made).1,
      List.forall_mem_flatMap]
  rw [images]
  constructor
  · rintro ⟨goals, made, solved⟩
    exact ⟨⟨goals, made, fun goal member => (solved goal member).1⟩,
      (parts goals made).mp fun goal member => (solved goal member).2⟩
  · rintro ⟨⟨goals, made, solved⟩, apart⟩
    exact ⟨goals, made, fun goal member =>
      ⟨solved goal member, (parts goals made).mpr apart goal member⟩⟩

/-- The goal of the frame says that the frame brings just the rest. -/
theorem solves_restGoals_iff (images : s.Canonical)
    (canonical : ∀ frame ∈ d.patternFrame, frame.Canonical)
    (sealed : ∀ frame ∈ d.subjectFrame, frame.kind? ≠ some d.kind) :
    (∃ goals, d.restGoals rest = some goals ∧ ∀ goal ∈ goals, Solves s goal) ↔
      (d.kind.Same (brought s d.kind d.patternFrame).1 rest ∧
        (brought s d.kind d.patternFrame).2 = d.subjectFrame) ∧
        ∀ frame ∈ d.patternFrame, Apart s frame := by
  unfold Deferred.restGoals brought
  cases shape : d.patternFrame with
  | none =>
    simp only [Option.map_none, Term.splice_none, Option.mem_def, reduceCtorEq, false_implies,
      implies_true, and_true]
    have empty : d.kind.Same [] rest ↔ rest = [] :=
      ⟨fun same => same.eq_nil_iff.mp rfl, fun empty => empty ▸ Kind.same_refl d.kind _⟩
    rw [empty]
    cases rest <;> cases d.subjectFrame <;> simp
  | some frame =>
    have image := images.apply (canonical frame shape)
    have meaning : s.apply frame = .normalized d.kind rest d.subjectFrame ↔ _ :=
      image.eq_normalized_iff
    rw [Term.splice_of_kind sealed] at meaning
    simp only [Option.some.injEq, exists_eq_left', List.forall_mem_singleton, Solves, meaning,
      Option.map_some, Term.splice_some, List.nil_append, Option.mem_def, forall_eq']

theorem solves_pairGoals_iff (images : s.Canonical)
    (canonical : ∀ frame ∈ d.patternFrame, frame.Canonical)
    (sealed : ∀ frame ∈ d.subjectFrame, frame.kind? ≠ some d.kind) :
    (∃ goals, d.pairGoals pairs rest = some goals ∧ ∀ goal ∈ goals, Solves s goal) ↔
      ((∀ pair ∈ pairs, pair.1.map s.apply = pair.2) ∧
        ∀ pair ∈ pairs, ∀ part ∈ pair.1.parts, Apart s part) ∧
      (d.kind.Same (brought s d.kind d.patternFrame).1 rest ∧
        (brought s d.kind d.patternFrame).2 = d.subjectFrame) ∧
        ∀ frame ∈ d.patternFrame, Apart s frame := by
  rw [← solves_allGoals_iff, ← solves_restGoals_iff images canonical sealed]
  unfold Deferred.pairGoals
  cases Pairing.allGoals pairs with
  | none => simp
  | some goals =>
    cases d.restGoals rest with
    | none => simp
    | some last => simp [or_imp, forall_and]

/-- A pattern, in any form, and a canonical subject over one signature. -/
structure Comparable (sig : Signature) (goal : Goal) : Prop where
  subject : goal.2.Canonical
  declaredPattern : goal.1.Within sig.declared
  declaredSubject : goal.2.Within sig.declared

/-- What the matcher is promised about a pattern and a subject. -/
structure Admissible (sig : Signature) (goal : Goal) : Prop extends Comparable sig goal where
  pattern : goal.1.Canonical
  keyed : goal.2.Everywhere Term.keyed

theorem Comparable.of_app {label : String} {sort sort' : TermSort} {args args' : List Term}
    (comparable : Comparable sig (.app label sort args, .app label sort' args')) :
    ∀ goal ∈ args.zip args', Comparable sig goal := by
  intro goal member
  obtain ⟨left, right⟩ := List.of_mem_zip member
  exact ⟨comparable.subject.of_app _ right,
    (Term.Everywhere.app_iff.mp comparable.declaredPattern).2 _ left,
    (Term.Everywhere.app_iff.mp comparable.declaredSubject).2 _ right⟩

theorem apart_collection_iff {kind : Kind} {entries : List (Entry Term)} {frame : Option Term} :
    Apart s (.collection kind entries frame) ↔
      apartAt s (.collection kind entries frame) ∧
        (∀ entry ∈ entries, ∀ part ∈ entry.parts, Apart s part) ∧
        ∀ rest ∈ frame, Apart s rest :=
  Term.Everywhere.collection_iff

theorem forall_zip_parts {first second : List (Entry Term)} (aligned : first.length ≤ second.length)
    (holds : Term → Prop) :
    (∀ pair ∈ first.zip second, ∀ part ∈ pair.1.parts, holds part) ↔
      ∀ entry ∈ first, ∀ part ∈ entry.parts, holds part := by
  rw [← List.forall_mem_map (f := Prod.fst)
    (P := fun entry : Entry Term => ∀ part ∈ entry.parts, holds part), List.map_fst_zip aligned]

private theorem solves_ordered_iff (ordered : d.kind.ordered = true) (images : s.Canonical)
    (admissible : Admissible sig d.goal) :
    Solves s d.goal ↔ ∃ goals ∈ d.alternatives, ∀ goal ∈ goals, Solves s goal := by
  have whole : (Term.collection d.kind d.pattern d.patternFrame).Canonical := admissible.pattern
  have whole' : (Term.collection d.kind d.subject d.subjectFrame).Canonical := admissible.subject
  have list : d.kind = .list := by simpa [Kind.ordered] using ordered
  have countable : apartAt s (.collection d.kind d.pattern d.patternFrame) := by
    intro merging
    rw [list] at merging
    cases merging
  have same : ∀ first second, d.kind.Same first second ↔ first = second := by
    intro first second
    rw [list]
    rfl
  rw [Solves, Deferred.goal, apart_collection_iff, apply_collection_eq_iff whole whole', same]
  unfold Deferred.alternatives
  rw [if_pos ordered]
  split
  · next long =>
    simp only [List.not_mem_nil, false_and, exists_false, iff_false]
    rintro ⟨⟨found, _⟩, _⟩
    have lengths := congrArg List.length found
    simp only [List.length_append, List.length_map] at lengths
    omega
  · next fits =>
    have fits : d.pattern.length ≤ d.subject.length := Nat.le_of_not_lt fits
    simp only [Option.mem_toList]
    rw [solves_pairGoals_iff images whole.of_frame whole'.kind?_of_frame, same,
      forall_zip_parts fits]
    rw [Pairing.map_append_eq_iff fits]
    tauto

private theorem solves_unordered_iff (unordered : d.kind.ordered = false) (images : s.Canonical)
    (admissible : Admissible sig d.goal) :
    Solves s d.goal ↔ ∃ goals ∈ d.alternatives, ∀ goal ∈ goals, Solves s goal := by
  have whole : (Term.collection d.kind d.pattern d.patternFrame).Canonical := admissible.pattern
  have whole' : (Term.collection d.kind d.subject d.subjectFrame).Canonical := admissible.subject
  have keyed : Entry.Keyed d.subject := admissible.keyed.here
  rw [Solves, Deferred.goal, apart_collection_iff, ← and_assoc,
    apply_unordered_iff unordered images whole whole', perm_iff_cancel keyed whole.of_entry]
  unfold Deferred.alternatives
  rw [if_neg (by simp [unordered])]
  cases cancelled : Pairing.cancel true d.pattern d.subject with
  | none => simp
  | some c =>
    obtain ⟨pairs, spec⟩ := Pairing.exists_cancels cancelled
    have keys : ∀ pair ∈ pairs, Apart s pair.1.key := fun pair member => by
      have inside : pair.1 ∈ d.pattern :=
        spec.left.mem_iff.mpr (List.mem_append_left _ (List.mem_map_of_mem member))
      exact (solves_ground (whole.of_entry _ inside _ pair.1.key_mem_parts)
        (spec.keys pair member).2).2
    have branch : ∀ positions ∈ (Problem.assignments c.left c.right).toList,
        ((∃ goals, d.pairGoals (c.left.zip (Pairing.select c.right positions))
              (Pairing.remaining c.right positions) = some goals ∧
            ∀ goal ∈ goals, Solves s goal) ↔
          (c.left.map (Entry.map s.apply) = Pairing.select c.right positions ∧
              ∀ entry ∈ c.left, ∀ part ∈ entry.parts, Apart s part) ∧
            ((brought s d.kind d.patternFrame).1.Perm (Pairing.remaining c.right positions) ∧
              (brought s d.kind d.patternFrame).2 = d.subjectFrame) ∧
            ∀ frame ∈ d.patternFrame, Apart s frame) := by
      intro positions member
      obtain ⟨size, distinct, inside⟩ := of_mem_assignments member
      have aligned : c.left.length = (Pairing.select c.right positions).length := by
        rw [Pairing.length_select inside, size]
      have found := Pairing.map_eq_iff_forall_zip (f := Entry.map s.apply) (g := id) aligned
      rw [List.map_id] at found
      have split := Pairing.select_append_remaining_perm distinct inside
      have counted : d.kind.idempotent = true → (brought s d.kind d.patternFrame).1.Nodup ∧
          (Pairing.remaining c.right positions).Nodup := fun merging => by
        have right := (List.nodup_append.mp (spec.right.nodup_iff.mp (whole'.nodup merging))).2.1
        exact ⟨nodup_brought images whole.of_frame merging,
          (List.nodup_append.mp (split.nodup_iff.mpr right)).2.1⟩
      rw [solves_pairGoals_iff images whole.of_frame whole'.kind?_of_frame,
        forall_zip_parts (Nat.le_of_eq aligned), found, Kind.same_iff_perm unordered counted]
      rfl
    rw [spec.forall_parts keys]
    constructor
    · rintro ⟨⟨⟨_, ⟨⟩, solved, perm⟩, left⟩, ⟨apartGoals, apartParts⟩, apartFrame⟩
      obtain ⟨positions, member, found, more⟩ := (perm_iff_assignment _).mp perm
      obtain ⟨goals, made, solves⟩ :=
        (branch positions member).mpr ⟨⟨found, apartParts⟩, ⟨more, left⟩, apartFrame⟩
      refine ⟨c.goals ++ goals, List.mem_filterMap.mpr ⟨positions, member, by rw [made]; rfl⟩, ?_⟩
      exact List.forall_mem_append.mpr
        ⟨fun goal inside => ⟨solved goal inside, apartGoals goal inside⟩, solves⟩
    · rintro ⟨all, among, solves⟩
      obtain ⟨positions, member, whole⟩ := List.mem_filterMap.mp among
      obtain ⟨goals, made, rfl⟩ := Option.map_eq_some_iff.mp whole
      obtain ⟨solvesCancelled, solvesGoals⟩ := List.forall_mem_append.mp solves
      obtain ⟨⟨found, apartParts⟩, ⟨more, left⟩, apartFrame⟩ :=
        (branch positions member).mp ⟨goals, made, solvesGoals⟩
      have perm := (perm_iff_assignment _).mpr ⟨positions, member, found, more⟩
      refine ⟨⟨⟨c, rfl, fun goal inside => (solvesCancelled goal inside).1, perm⟩, left⟩, ?_, apartFrame⟩
      exact ⟨fun goal inside => (solvesCancelled goal inside).2, apartParts⟩

/-- A substitution matches two collections exactly when it solves one alternative. -/
theorem solves_iff (images : s.Canonical) (admissible : Admissible sig d.goal) :
    Solves s d.goal ↔ ∃ goals ∈ d.alternatives, ∀ goal ∈ goals, Solves s goal := by
  by_cases ordered : d.kind.ordered = true
  · exact solves_ordered_iff ordered images admissible
  · exact solves_unordered_iff (by simpa using ordered) images admissible

/-- No substitution solves two alternatives. -/
theorem alternatives_pairwise (d : Deferred) :
    d.alternatives.Pairwise fun first second => ∀ s : Subst,
      ¬((∀ goal ∈ first, Solves s goal) ∧ ∀ goal ∈ second, Solves s goal) := by
  unfold Deferred.alternatives
  split
  · split
    · exact .nil
    · cases d.pairGoals (d.pattern.zip d.subject) (d.subject.drop d.pattern.length) <;> simp
  · cases Pairing.cancel true d.pattern d.subject with
    | none => exact .nil
    | some c =>
      have found : ∀ positions ∈ (Problem.assignments c.left c.right).toList, ∀ goals,
          (d.pairGoals (c.left.zip (Pairing.select c.right positions))
            (Pairing.remaining c.right positions)).map (c.goals ++ ·) = some goals →
          ∀ s : Subst, (∀ goal ∈ goals, Solves s goal) →
            c.left.map (Entry.map s.apply) = Pairing.select c.right positions := by
        intro positions member all whole s solves
        obtain ⟨goals, made, rfl⟩ := Option.map_eq_some_iff.mp whole
        obtain ⟨first, madeFirst, rest⟩ := Option.bind_eq_some_iff.mp made
        obtain ⟨last, _, same⟩ := Option.bind_eq_some_iff.mp rest
        obtain rfl := Option.some.inj same
        obtain ⟨size, _, inside⟩ := of_mem_assignments member
        have aligned : c.left.length = (Pairing.select c.right positions).length := by
          rw [Pairing.length_select inside, size]
        have images := (solves_allGoals_iff.mp ⟨first, madeFirst, fun goal among =>
          solves goal (List.mem_append_right _ (List.mem_append_left _ among))⟩).1
        rw [← List.map_id (Pairing.select c.right positions)]
        exact (Pairing.map_eq_iff_forall_zip aligned).mpr images
      rw [List.pairwise_filterMap]
      refine (assignments_pairwise c.left c.right).imp_of_mem
        fun {first second} memberFirst memberSecond differ goals made goals' made' s solves => ?_
      have image := found first memberFirst goals made s solves.1
      exact differ (image.symm.trans (found second memberSecond goals' made' s solves.2))

end Solutions

section Shape

variable {sig : Signature} {d : Deferred} {goals : List Goal} {rest : List (Entry Term)}
  {pairs : List (Entry Term × Entry Term)}

/-- Where the subject of a goal comes from: it is part of an entry, or what is left for the frame. -/
def Source (d : Deferred) (subject : Term) : Prop :=
  (∃ entry ∈ d.subject, subject ∈ entry.parts) ∨
    ∃ rest, (∀ entry ∈ rest, entry ∈ d.subject) ∧
      subject = .normalized d.kind rest d.subjectFrame

private theorem restGoals_shape (made : d.restGoals rest = some goals)
    (inside : ∀ entry ∈ rest, entry ∈ d.subject) :
    goals.map Prod.fst = d.patternFrame.toList ∧ ∀ goal ∈ goals, Source d goal.2 := by
  unfold Deferred.restGoals at made
  cases shape : d.patternFrame with
  | none =>
    rw [shape] at made
    dsimp only at made
    split at made
    · cases made
      exact ⟨rfl, nofun⟩
    · cases made
  | some frame =>
    rw [shape] at made
    cases made
    exact ⟨rfl, List.forall_mem_singleton.mpr (.inr ⟨rest, inside, rfl⟩)⟩

theorem pairGoals_shape (made : d.pairGoals pairs rest = some goals)
    (inside : ∀ pair ∈ pairs, pair.2 ∈ d.subject) (left : ∀ entry ∈ rest, entry ∈ d.subject) :
    goals.map Prod.fst = pairs.flatMap (fun pair => pair.1.parts) ++ d.patternFrame.toList ∧
      ∀ goal ∈ goals, Source d goal.2 := by
  obtain ⟨first, madeFirst, more⟩ := Option.bind_eq_some_iff.mp made
  obtain ⟨last, madeLast, same⟩ := Option.bind_eq_some_iff.mp more
  obtain rfl := Option.some.inj same
  obtain ⟨patterns, subjects⟩ := Pairing.allGoals_parts madeFirst
  obtain ⟨frames, sources⟩ := restGoals_shape madeLast left
  refine ⟨by rw [List.map_append, patterns, frames], List.forall_mem_append.mpr ⟨?_, sources⟩⟩
  intro goal member
  have part : goal.2 ∈ pairs.flatMap (fun pair => pair.2.parts) := by
    rw [← subjects]
    exact List.mem_map_of_mem member
  obtain ⟨pair, among, within⟩ := List.mem_flatMap.mp part
  exact .inl ⟨pair.2, inside pair among, within⟩

/-- The patterns of an alternative are the parts of the pattern, except for ground keys. -/
theorem alternative_shape (member : goals ∈ d.alternatives) :
    (∃ keys : List Term, (∀ key ∈ keys, key.ground = true) ∧
      (d.pattern.flatMap Entry.parts ++ d.patternFrame.toList).Perm
        (keys ++ goals.map Prod.fst)) ∧
      ∀ goal ∈ goals, Source d goal.2 := by
  unfold Deferred.alternatives at member
  split at member
  · split at member
    · cases member
    · next fits =>
      have fits : d.pattern.length ≤ d.subject.length := Nat.le_of_not_lt fits
      obtain ⟨patterns, sources⟩ := pairGoals_shape (Option.mem_toList.mp member)
        (fun pair among => (List.of_mem_zip among).2) fun entry among => List.mem_of_mem_drop among
      refine ⟨⟨[], nofun, ?_⟩, sources⟩
      rw [patterns, ← List.flatMap_map Prod.fst Entry.parts, List.map_fst_zip fits]
      exact .refl _
  · split at member
    · cases member
    · next c cancelled =>
      obtain ⟨positions, tried, whole⟩ := List.mem_filterMap.mp member
      obtain ⟨more, made, rfl⟩ := Option.map_eq_some_iff.mp whole
      obtain ⟨pairs, spec⟩ := Pairing.exists_cancels cancelled
      obtain ⟨size, _, inside⟩ := of_mem_assignments tried
      have aligned : c.left.length ≤ (Pairing.select c.right positions).length := by
        rw [Pairing.length_select inside, size]
      have right : ∀ entry ∈ c.right, entry ∈ d.subject := fun entry among =>
        spec.right.mem_iff.mpr (List.mem_append_right _ among)
      obtain ⟨patterns, sources⟩ := pairGoals_shape made
        (fun pair among => right _ (Pairing.mem_of_mem_select (List.of_mem_zip among).2))
        fun entry among => right _ (Pairing.mem_remaining among)
      refine ⟨⟨pairs.map fun pair => pair.1.key, ?_, ?_⟩, List.forall_mem_append.mpr ⟨?_, sources⟩⟩
      · exact List.forall_mem_map.mpr fun pair among => (spec.keys pair among).2
      · rw [List.map_append, patterns, ← List.flatMap_map Prod.fst Entry.parts,
          List.map_fst_zip aligned, ← List.append_assoc, ← List.append_assoc]
        exact spec.parts_perm.append_right _
      · intro goal among
        obtain ⟨pair, present, _, part⟩ := spec.mem_goals among
        have paired : pair.2 ∈ d.subject :=
          spec.right.mem_iff.mpr (List.mem_append_left _ (List.mem_map_of_mem present))
        exact .inl ⟨pair.2, paired, part⟩

end Shape

end Reach.Matching
