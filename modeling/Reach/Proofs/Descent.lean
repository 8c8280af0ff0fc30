import Reach.Proofs.Unification

/-!
Goals that are made from another goal: their sides are parts of its sides, or collections of some of the
entries. They are smaller together than the goal, as long as no two frames meet in it; a frame that both
sides share would be one variable more.
-/

namespace Reach

namespace Term

/-- At the root there is no frame. -/
def Unframed : Term → Prop
  | .collection _ _ frame => frame = none
  | _ => True

/-- There is no frame in the term. -/
abbrev Frameless (term : Term) : Prop :=
  term.Everywhere Unframed

/-- There is neither a frame nor a variable in the term. -/
structure Sealed (term : Term) : Prop where
  ground : term.ground = true
  frameless : term.Frameless

variable {term whole part child : Term} {kind : Kind} {entries rest : List (Entry Term)}
  {frame : Option Term} {s : Subst}

theorem frameless_normalized
    (parts : ∀ entry ∈ entries, ∀ part ∈ entry.parts, part.Frameless) :
    (normalized kind entries none).Frameless :=
  .normalized parts nofun fun _ _ => rfl

theorem Frameless.apply (frameless : term.Frameless) (canonical : term.Canonical)
    (images : ∀ v ∈ term.vars, (s.image v).Frameless) : (s.apply term).Frameless := by
  induction canonical with
  | var v =>
    rw [Subst.apply_var_eq]
    exact images v (by simp)
  | app label sort parts ih =>
    rw [Subst.apply_app_eq]
    refine Everywhere.app_iff.mpr ⟨trivial, fun image member => ?_⟩
    obtain ⟨arg, inside, rfl⟩ := List.mem_map.mp member
    exact ih arg inside ((Everywhere.app_iff.mp frameless).2 arg inside) fun v occurs =>
      images v (mem_vars_app.mpr ⟨arg, inside, occurs⟩)
  | token sort value =>
    rw [Subst.apply_token_eq]
    exact frameless
  | collection parts last arranged ihEntries ihFrame =>
    obtain ⟨rfl, inner, _⟩ := Everywhere.collection_iff.mp frameless
    rw [Subst.apply_collection_eq s (.collection parts last arranged)]
    refine frameless_normalized fun entry member part inside => ?_
    obtain ⟨source, present, piece, within, rfl⟩ := Entry.mem_parts_map member inside
    exact ihEntries source present piece within (inner source present piece within) fun v occurs =>
      images v (mem_vars_collection.mpr (.inl ⟨source, present, piece, within, occurs⟩))

theorem Sealed.apply_eq (closed : term.Sealed) (canonical : term.Canonical) : s.apply term = term :=
  Subst.apply_eq_self canonical fun v occurs => by
    rw [(ground_iff_vars_eq_nil term).mp closed.ground] at occurs
    cases occurs

/-- What a term has only if the term that it was made from has it. -/
structure Inherits (whole part : Term) : Prop where
  canonical : part.Canonical
  vars : part.vars ⊆ whole.vars
  frameless : whole.Frameless → part.Frameless

theorem Inherits.sealed (inherits : Inherits whole part) (closed : whole.Sealed) : part.Sealed where
  ground := by
    have none := (ground_iff_vars_eq_nil whole).mp closed.ground
    exact (ground_iff_vars_eq_nil part).mpr (List.subset_nil.mp (none ▸ inherits.vars))
  frameless := inherits.frameless closed.frameless

theorem inherits_child (canonical : whole.Canonical) (member : child ∈ whole.children) :
    Inherits whole child where
  canonical := (canonical.everywhere.children child member).here
  vars v occurs := by
    cases whole with
    | var w => cases member
    | token sort value => cases member
    | app label sort args => exact mem_vars_app.mpr ⟨child, member, occurs⟩
    | collection kind entries frame =>
      rcases mem_children_collection.mp member with ⟨entry, present, inside⟩ | last
      · exact mem_vars_collection.mpr (.inl ⟨entry, present, child, inside, occurs⟩)
      · exact mem_vars_collection.mpr (.inr ⟨child, last, occurs⟩)
  frameless frameless := frameless.children child member

theorem inherits_part (canonical : (collection kind entries frame).Canonical) :
    ∀ entry ∈ entries, ∀ part ∈ entry.parts, Inherits (collection kind entries frame) part :=
  fun entry member _ inside =>
    inherits_child canonical (mem_children_collection.mpr (.inl ⟨entry, member, inside⟩))

theorem inherits_frame (canonical : (collection kind entries frame).Canonical) :
    ∀ last ∈ frame, Inherits (collection kind entries frame) last :=
  fun _ member => inherits_child canonical (mem_children_collection.mpr (.inr member))

/-- Some of the entries as a collection of their own. -/
theorem inherits_rest (canonical : (collection kind entries frame).Canonical) (subset : rest ⊆ entries) :
    Inherits (collection kind entries frame) (normalized kind rest none) where
  canonical := .normalized (fun entry member => canonical.of_entry entry (subset member)) nofun
  vars v occurs := by
    rcases mem_vars_normalized.mp occurs with ⟨entry, member, part, inside, occurs⟩ | ⟨_, last, _⟩
    · exact mem_vars_collection.mpr (.inl ⟨entry, subset member, part, inside, occurs⟩)
    · cases last
  frameless frameless := frameless_normalized fun entry member part inside =>
    (inherits_part canonical entry (subset member) part inside).frameless frameless

/-- The frame, or an empty collection where there is none. -/
theorem inherits_getD (canonical : (collection kind entries frame).Canonical) :
    Inherits (collection kind entries frame) (frame.getD (.empty kind)) := by
  cases frame with
  | some last => exact inherits_frame canonical last rfl
  | none => exact normalized_nil_none kind ▸ inherits_rest canonical (List.nil_subset entries)

section Mass

/-- The size of the parts of some entries together. -/
def mass (entries : List (Entry Term)) : Nat :=
  total ((entries.flatMap Entry.parts).map size)

theorem mass_cons (entry : Entry Term) (entries : List (Entry Term)) :
    mass (entry :: entries) = total (entry.parts.map size) + mass entries := by
  rw [mass, List.flatMap_cons, List.map_append, total_append]
  rfl

theorem mass_append (first second : List (Entry Term)) :
    mass (first ++ second) = mass first + mass second := by
  rw [mass, List.flatMap_append, List.map_append, total_append]
  rfl

theorem mass_perm {first second : List (Entry Term)} (perm : first.Perm second) :
    mass first = mass second :=
  total_perm ((perm.flatMap_right Entry.parts).map size)

theorem size_collection_none (kind : Kind) (entries : List (Entry Term)) :
    (collection kind entries none).size = 1 + mass entries := by
  rw [size_collection, Option.toList_none, List.append_nil]
  rfl

theorem size_collection_some (kind : Kind) (entries : List (Entry Term)) (last : Term) :
    (collection kind entries (some last)).size = 1 + mass entries + last.size := by
  rw [size_collection, List.map_append, total_append, ← Nat.add_assoc]
  rfl

/-- Collections with the same frame differ in size as their entries do. -/
theorem size_add_mass (kind : Kind) (first second : List (Entry Term)) (frame : Option Term) :
    (collection kind first frame).size + mass second =
      (collection kind second frame).size + mass first := by
  cases frame with
  | none => rw [size_collection_none, size_collection_none]; omega
  | some last => rw [size_collection_some, size_collection_some]; omega

private theorem mass_arrange_le (kind : Kind) (entries : List (Entry Term)) :
    mass (arrange kind entries) ≤ mass entries := by
  cases merging : kind.idempotent with
  | false => exact Nat.le_of_eq (mass_perm (arrange_perm merging entries))
  | true =>
    -- The canonical form of a set has each of the entries once.
    obtain ⟨kept, same, sublist⟩ := List.subperm_of_subset (nodup_arrange merging entries)
      fun _ => mem_arrange.mp
    obtain ⟨dropped, split⟩ := sublist.exists_perm_append
    rw [← mass_perm same, mass_perm split, mass_append]
    exact Nat.le_add_right _ _

theorem size_normalized_le (kind : Kind) (entries : List (Entry Term)) :
    (normalized kind entries none).size ≤ 1 + mass entries := by
  rw [normalized_none, size_collection_none]
  exact Nat.add_le_add_left (mass_arrange_le kind entries) 1

end Mass

end Term

namespace Unification

open Term

variable {p next : Problem} {goal part : Goal} {goals : List Goal} {v : Variable} {term : Term}
  {kind : Kind} {left right : List (Entry Term)} {leftFrame rightFrame : Option Term} {fresh : Fresh}

section Goals

/-- The size of both sides of some goals together. -/
def extent (goals : List Goal) : Nat :=
  total (goals.map fun goal => goal.1.size + goal.2.size)

theorem extent_append (first second : List Goal) :
    extent (first ++ second) = extent first + extent second := by
  rw [extent, List.map_append, total_append]
  rfl

theorem extent_singleton (a b : Term) : extent [(a, b)] = a.size + b.size :=
  rfl

theorem extent_eq_sides (goals : List Goal) :
    extent goals = total ((goals.map Prod.fst).map size) + total ((goals.map Prod.snd).map size) := by
  induction goals with
  | nil => rfl
  | cons goal rest ih =>
    simp only [extent, List.map_cons, total_cons] at ih ⊢
    omega

theorem extent_allGoals {pairs : List (Entry Term × Entry Term)}
    (made : Pairing.allGoals pairs = some goals) :
    extent goals = mass (pairs.map Prod.fst) + mass (pairs.map Prod.snd) := by
  obtain ⟨lefts, rights⟩ := Pairing.allGoals_parts made
  rw [extent_eq_sides, lefts, rights, mass, mass, List.flatMap_map, List.flatMap_map]

/-- Frames cannot meet in the goal. -/
def Apart (goal : Goal) : Prop :=
  goal.1.Frameless ∧ goal.2.Frameless ∨ goal.1.Sealed ∨ goal.2.Sealed

theorem Apart.swap (apart : Apart goal) : Apart goal.swap :=
  apart.imp And.symm Or.symm

/-- The sides of a goal are made from the sides of another, or the other way round. -/
def Stems (goal part : Goal) : Prop :=
  Inherits goal.1 part.1 ∧ Inherits goal.2 part.2 ∨ Inherits goal.1 part.2 ∧ Inherits goal.2 part.1

theorem Apart.of_inherits (apart : Apart goal) (first : Inherits goal.1 part.1)
    (second : Inherits goal.2 part.2) : Apart part := by
  rcases apart with ⟨left, right⟩ | closed | closed
  · exact .inl ⟨first.frameless left, second.frameless right⟩
  · exact .inr (.inl (first.sealed closed))
  · exact .inr (.inr (second.sealed closed))

theorem Apart.of_stems (apart : Apart goal) (stems : Stems goal part) : Apart part := by
  rcases stems with ⟨first, second⟩ | ⟨first, second⟩
  · exact apart.of_inherits first second
  · exact (@of_inherits _ part.swap apart first second).swap

/-- One of two collections has no frame. -/
theorem Apart.frames {kind' : Kind}
    (apart : Apart (.collection kind left leftFrame, .collection kind' right rightFrame)) :
    leftFrame = none ∨ rightFrame = none := by
  rcases apart with ⟨frameless, _⟩ | ⟨_, frameless⟩ | ⟨_, frameless⟩
  · exact .inl frameless.here
  · exact .inl frameless.here
  · exact .inr frameless.here

/-- A variable is put next to terms without frames only. -/
theorem Apart.frameless_of_var (apart : Apart (.var v, term)) : term.Frameless := by
  rcases apart with ⟨_, frameless⟩ | ⟨ground, _⟩ | ⟨_, frameless⟩
  · exact frameless
  · cases ground
  · exact frameless

/-- Goals that are made from another goal, and are smaller together. -/
structure Divides (goal : Goal) (goals : List Goal) : Prop where
  stems : ∀ part ∈ goals, Stems goal part
  smaller : extent goals < goal.1.size + goal.2.size

theorem divides_args {label label' : String} {sort sort' : TermSort} {args args' : List Term}
    (aligned : args.length = args'.length) (canonicalLeft : (Term.app label sort args).Canonical)
    (canonicalRight : (Term.app label' sort' args').Canonical) :
    Divides (.app label sort args, .app label' sort' args') (args.zip args') where
  stems pair member := .inl ⟨inherits_child canonicalLeft (List.of_mem_zip member).1,
    inherits_child canonicalRight (List.of_mem_zip member).2⟩
  smaller := by
    rw [extent_eq_sides, List.map_fst_zip (Nat.le_of_eq aligned),
      List.map_snd_zip (Nat.le_of_eq aligned.symm), size_app, size_app]
    omega

variable (canonicalLeft : (Term.collection kind left leftFrame).Canonical)
  (canonicalRight : (Term.collection kind right rightFrame).Canonical)
include canonicalLeft canonicalRight

/-- The goals that make entries of two collections equal. -/
theorem stems_allGoals {pairs : List (Entry Term × Entry Term)} (made : Pairing.allGoals pairs = some goals)
    (inside : ∀ pair ∈ pairs, pair.1 ∈ left ∧ pair.2 ∈ right) :
    ∀ part ∈ goals, Stems (.collection kind left leftFrame, .collection kind right rightFrame) part :=
  fun part member => .inl (sides_of_allGoals made
    (fun pair present => inherits_part canonicalLeft _ (inside pair present).1)
    (fun pair present => inherits_part canonicalRight _ (inside pair present).2) part member)

end Goals

section Ordered

/-- What is in front on both sides, and what is beyond the other side. -/
theorem extent_front (front : Pairing.allGoals (left.zip right) = some goals) :
    extent goals + mass (left.drop right.length) + mass (right.drop left.length) =
      mass left + mass right := by
  rw [extent_allGoals front]
  clear front
  induction left generalizing right with
  | nil => simp [mass]
  | cons entry rest ih =>
    cases right with
    | nil => simp [mass]
    | cons entry' rest' =>
      have later := @ih rest'
      simp only [List.zip_cons_cons, List.map_cons, List.length_cons, List.drop_succ_cons,
        mass_cons] at later ⊢
      omega

variable (canonicalLeft : (Term.collection kind left leftFrame).Canonical)
  (canonicalRight : (Term.collection kind right rightFrame).Canonical)
  (frames : leftFrame = none ∨ rightFrame = none)
include canonicalLeft canonicalRight frames

private theorem divides_expandOrdered (made : p.expandOrdered kind left right leftFrame rightFrame = some next) :
    ∃ goals, next = p.addGoals goals ∧
      Divides (.collection kind left leftFrame, .collection kind right rightFrame) goals := by
  obtain ⟨goals, front, made⟩ := Option.bind_eq_some_iff.mp made
  have inner := stems_allGoals canonicalLeft canonicalRight front fun _ => List.of_mem_zip
  have sizes := extent_front front
  dsimp only at made
  split at made
  · next first rest beyond =>
    obtain ⟨frame, rfl, made⟩ := Option.bind_eq_some_iff.mp made
    cases made
    obtain rfl : leftFrame = none := frames.resolve_right nofun
    rw [← beyond]
    refine ⟨_, addGoals_addGoals p _ _, ?_, ?_⟩
    · refine List.forall_mem_append.mpr ⟨inner, ?_⟩
      refine List.forall_mem_singleton.mpr (.inr ⟨?_, ?_⟩)
      · exact inherits_rest canonicalLeft (List.drop_subset _ _)
      · exact inherits_frame canonicalRight frame rfl
    · have last := size_normalized_le kind (left.drop right.length)
      rw [extent_append, extent_singleton, size_collection_none, size_collection_some]
      omega
  · next first rest level beyond =>
    obtain ⟨frame, rfl, made⟩ := Option.bind_eq_some_iff.mp made
    cases made
    obtain rfl : rightFrame = none := frames.resolve_left nofun
    rw [← beyond]
    refine ⟨_, addGoals_addGoals p _ _, ?_, ?_⟩
    · refine List.forall_mem_append.mpr ⟨inner, ?_⟩
      refine List.forall_mem_singleton.mpr (.inl ⟨?_, ?_⟩)
      · exact inherits_frame canonicalLeft frame rfl
      · exact inherits_rest canonicalRight (List.drop_subset _ _)
    · have last := size_normalized_le kind (right.drop left.length)
      rw [extent_append, extent_singleton, size_collection_none, size_collection_some]
      omega
  · split at made
    · cases made
      refine ⟨goals, rfl, inner, ?_⟩
      rw [size_collection_none, size_collection_none]
      omega
    · next framed =>
      cases made
      refine ⟨_, addGoals_addGoals p _ _, ?_, ?_⟩
      · refine List.forall_mem_append.mpr ⟨inner, ?_⟩
        exact List.forall_mem_singleton.mpr
          (.inl ⟨inherits_getD canonicalLeft, inherits_getD canonicalRight⟩)
      · -- One side has a frame, so that the empty collection stands for the other.
        have empty : (Term.empty kind).size = 1 := size_collection_none kind []
        rw [extent_append, extent_singleton]
        rcases frames with rfl | rfl
        · cases rightFrame with
          | none => exact absurd rfl (framed rfl)
          | some frame =>
            rw [Option.getD_none, Option.getD_some, size_collection_none, size_collection_some]
            omega
        · cases leftFrame with
          | none => exact absurd rfl (framed rfl)
          | some frame =>
            rw [Option.getD_none, Option.getD_some, size_collection_none, size_collection_some]
            omega

end Ordered

section Unordered

variable {c : Pairing.Cancelled} {pairs : List (Entry Term × Entry Term)} {pairing : List Nat × List Nat}
  {rest rest' : List (Entry Term)}

/-- Of entries with one key only the values are left to compare. -/
theorem extent_drop_le {a b : Entry Term} (made : Pairing.entryGoals a b = some goals) :
    extent (goals.drop 1) ≤ total (a.parts.map size) + total (b.parts.map size) := by
  cases a <;> cases b <;> cases made <;> simp [extent, Entry.parts]; omega

private theorem extent_cancels (spec : Pairing.Cancels left right c pairs) :
    extent c.goals + mass c.left + mass c.right ≤ mass left + mass right := by
  have values : extent c.goals ≤ mass (pairs.map Prod.fst) + mass (pairs.map Prod.snd) := by
    rw [spec.goals]
    have shapes := spec.shapes
    clear spec
    induction pairs with
    | nil => exact Nat.zero_le _
    | cons pair rest ih =>
      obtain ⟨shape, shapes⟩ := List.forall_mem_cons.mp shapes
      obtain ⟨goals, made⟩ := Option.isSome_iff_exists.mp shape
      have here := extent_drop_le made
      have later := ih shapes
      rw [List.flatMap_cons, extent_append, List.map_cons, List.map_cons, mass_cons, mass_cons, made,
        Option.getD_some]
      omega
  rw [mass_perm spec.left, mass_perm spec.right, mass_append, mass_append]
  omega

/-- What a pairing puts side by side, and what it leaves over. -/
theorem extent_paired (injection : Pairing.Injection left.length right.length pairing)
    (made : Pairing.allGoals (Pairing.paired left right pairing) = some goals) :
    extent goals + mass (Pairing.remaining left pairing.1) + mass (Pairing.remaining right pairing.2) =
      mass left + mass right := by
  have splitLeft := mass_perm
    (Pairing.select_append_remaining_perm injection.nodup_left injection.below_left)
  have splitRight := mass_perm
    (Pairing.select_append_remaining_perm injection.right injection.below)
  have aligned : (Pairing.select left pairing.1).length = (Pairing.select right pairing.2).length := by
    rw [Pairing.length_select injection.below_left, Pairing.length_select injection.below, injection.length]
  rw [extent_allGoals made, Pairing.paired, List.map_fst_zip (Nat.le_of_eq aligned),
    List.map_snd_zip (Nat.le_of_eq aligned.symm)]
  rw [mass_append] at splitLeft splitRight
  omega

variable {c : Choice} (frames : c.leftFrame = none ∨ c.rightFrame = none)
include frames

/-- Where two frames do not meet, no frame is shared. -/
theorem frameGoals_eq (rest rest' : List (Entry Term)) (fresh : Fresh) :
    c.frameGoals rest rest' fresh =
      (c.leftFrame.toList.map (·, .normalized c.kind rest' none) ++
        c.rightFrame.toList.map (·, .normalized c.kind rest none), fresh) := by
  unfold Choice.frameGoals
  rcases frames with none | none
  · rw [none]
    cases c.rightFrame <;> rfl
  · rw [none]
    cases c.leftFrame <;> rfl

/-- The counter does not matter. -/
theorem branch_eq (pairing : List Nat × List Nat) (fresh : Fresh) :
    c.branch pairing fresh = ((c.branch pairing .start).1, fresh) := by
  unfold Choice.branch
  dsimp only
  cases Pairing.allGoals ((Pairing.select c.left pairing.1).zip (Pairing.select c.right pairing.2)) with
  | none => rfl
  | some goals => simp only [frameGoals_eq frames]

private theorem extent_frameGoals :
    extent (c.frameGoals rest rest' fresh).1 + mass c.left + mass c.right <
      (collection c.kind c.left c.leftFrame).size + (collection c.kind c.right c.rightFrame).size +
        mass rest + mass rest' := by
  have taken := size_normalized_le c.kind rest
  have taken' := size_normalized_le c.kind rest'
  rw [frameGoals_eq frames]
  cases shape : c.leftFrame with
  | none =>
    rw [size_collection_none]
    cases c.rightFrame with
    | none =>
      rw [size_collection_none]
      simp only [extent, Option.toList_none, List.map_nil, List.append_nil, total_nil]
      omega
    | some frame =>
      rw [size_collection_some]
      simp only [extent, Option.toList_none, Option.toList_some, List.map_nil, List.map_cons,
        List.nil_append, total_nil, total_cons]
      omega
  | some frame =>
    have none : c.rightFrame = none := frames.resolve_left (by rw [shape]; nofun)
    rw [none, size_collection_none, size_collection_some]
    simp only [extent, Option.toList_none, Option.toList_some, List.map_nil, List.map_cons,
      List.append_nil, total_nil, total_cons]
    omega

variable (canonicalLeft : (Term.collection c.kind left c.leftFrame).Canonical)
  (canonicalRight : (Term.collection c.kind right c.rightFrame).Canonical)
include canonicalLeft canonicalRight

/-- Each frame takes what is left of the entries of the other side. -/
theorem stems_frameGoals (insideLeft : rest ⊆ left) (insideRight : rest' ⊆ right) :
    ∀ part ∈ (c.frameGoals rest rest' fresh).1,
      Stems (.collection c.kind left c.leftFrame, .collection c.kind right c.rightFrame) part := by
  rw [frameGoals_eq frames]
  refine List.forall_mem_append.mpr ⟨fun part member => .inl ?_, fun part member => .inr ?_⟩
  · obtain ⟨frame, present, rfl⟩ := List.mem_map.mp member
    exact ⟨inherits_frame canonicalLeft frame (Option.mem_toList.mp present),
      inherits_rest canonicalRight insideRight⟩
  · obtain ⟨frame, present, rfl⟩ := List.mem_map.mp member
    exact ⟨inherits_rest canonicalLeft insideLeft,
      inherits_frame canonicalRight frame (Option.mem_toList.mp present)⟩

/-- The goals of one pairing of entries that two collections have. -/
theorem divides_branch (insideLeft : c.left ⊆ left) (insideRight : c.right ⊆ right)
    (injection : Pairing.Injection c.left.length c.right.length pairing)
    (made : (c.branch pairing fresh).1 = some next) :
    ∃ goals, next = c.base.addGoals goals ∧
      (∀ part ∈ goals,
        Stems (.collection c.kind left c.leftFrame, .collection c.kind right c.rightFrame) part) ∧
      extent goals < (collection c.kind c.left c.leftFrame).size +
        (collection c.kind c.right c.rightFrame).size := by
  obtain ⟨front, paired, rfl⟩ := branch_eq_some made
  have sizes := extent_paired injection paired
  have framed := @extent_frameGoals fresh (Pairing.remaining c.left pairing.1)
    (Pairing.remaining c.right pairing.2) c frames
  refine ⟨_, rfl, List.forall_mem_append.mpr ⟨?_, ?_⟩, ?_⟩
  · refine stems_allGoals canonicalLeft canonicalRight paired fun pair member => ⟨?_, ?_⟩
    · exact insideLeft (Pairing.mem_of_mem_select (List.of_mem_zip member).1)
    · exact insideRight (Pairing.mem_of_mem_select (List.of_mem_zip member).2)
  · exact stems_frameGoals frames canonicalLeft canonicalRight
      (fun _ member => insideLeft (Pairing.mem_remaining member))
      (fun _ member => insideRight (Pairing.mem_remaining member))
  · rw [extent_append]
    omega

end Unordered

section Expansion

/-- Wherever the counter stands there are the same ways on, and each leads to a problem of which this
holds. -/
def Progress.Onward (holds : Problem → Prop) : Progress → Prop
  | .next problem => holds problem
  | .choose c => ∀ pairing ∈ c.pairings.toList, ∃ made : Option Problem,
      (∀ fresh, c.branch pairing fresh = (made, fresh)) ∧ ∀ problem ∈ made, holds problem
  | _ => True

variable {holds holds' : Problem → Prop} {progress : Progress}

theorem Progress.Onward.mono (onward : progress.Onward holds)
    (stronger : ∀ problem, holds problem → holds' problem) : progress.Onward holds' := by
  cases progress with
  | solved unifier => trivial
  | failed => trivial
  | next problem => exact stronger problem onward
  | choose c =>
    intro pairing member
    obtain ⟨made, same, each⟩ := onward pairing member
    exact ⟨made, same, fun problem member => stronger problem (each problem member)⟩

theorem onward_ofOption {made : Option Problem} (each : ∀ problem, made = some problem → holds problem) :
    (Progress.ofOption made).Onward holds := by
  cases made with
  | none => trivial
  | some problem => exact each problem rfl

/-- The problem gets goals that are made from this one and are smaller. -/
def Divided (p : Problem) (goal : Goal) (next : Problem) : Prop :=
  ∃ goals, next = p.addGoals goals ∧ Divides goal goals

private theorem onward_expandUnordered (canonicalLeft : (Term.collection kind left leftFrame).Canonical)
    (canonicalRight : (Term.collection kind right rightFrame).Canonical)
    (frames : leftFrame = none ∨ rightFrame = none) :
    (p.expandUnordered kind left right leftFrame rightFrame).Onward
      (Divided p (.collection kind left leftFrame, .collection kind right rightFrame)) := by
  unfold Problem.expandUnordered
  split
  · trivial
  next goals left' right' cancelled =>
  obtain ⟨pairs, spec⟩ := Pairing.exists_cancels cancelled
  have sizes := extent_cancels spec
  have insideLeft : left' ⊆ left := fun entry member =>
    spec.left.mem_iff.mpr (List.mem_append_right _ member)
  have insideRight : right' ⊆ right := fun entry member =>
    spec.right.mem_iff.mpr (List.mem_append_right _ member)
  have values : ∀ part ∈ goals,
      Stems (.collection kind left leftFrame, .collection kind right rightFrame) part := by
    intro part member
    obtain ⟨pair, present, first, second⟩ := spec.mem_goals member
    refine .inl ⟨inherits_part canonicalLeft pair.1 ?_ _ first, inherits_part canonicalRight pair.2 ?_ _ second⟩
    · exact spec.left.mem_iff.mpr (List.mem_append_left _ (List.mem_map_of_mem present))
    · exact spec.right.mem_iff.mpr (List.mem_append_left _ (List.mem_map_of_mem present))
  dsimp only at sizes ⊢
  split
  · next candidates made =>
    intro pairing member
    refine ⟨_, branch_eq frames pairing, fun next reached => ?_⟩
    have among := (Pairing.representatives_sublist left' right' candidates).subset member
    obtain ⟨more, rfl, stems, smaller⟩ := divides_branch frames canonicalLeft canonicalRight insideLeft
      insideRight (injection_of_mem_pairings made among).1 reached
    refine ⟨goals ++ more, addGoals_addGoals p goals more, List.forall_mem_append.mpr ⟨values, stems⟩, ?_⟩
    have trimmedLeft := size_add_mass kind left left' leftFrame
    have trimmedRight := size_add_mass kind right right' rightFrame
    dsimp only at smaller ⊢
    rw [extent_append]
    omega
  · next made =>
    -- Nothing is left on either side, and as frames do not meet there is none.
    obtain ⟨rfl, rfl, same⟩ := pairings_eq_none made
    have bare : leftFrame = none ∧ rightFrame = none := by
      cases leftFrame <;> cases rightFrame <;> simp_all
    obtain ⟨rfl, rfl⟩ := bare
    refine ⟨goals, rfl, values, ?_⟩
    dsimp only
    rw [size_collection_none, size_collection_none]
    omega

/-- Two collections of one kind whose turn has come. -/
theorem onward_expand {a b : Term} (sameLeft : p.subst.apply goal.1 = a)
    (sameRight : p.subst.apply goal.2 = b) (kindLeft : a.kind? = some kind) (kindRight : b.kind? = some kind)
    (canonicalLeft : a.Canonical) (canonicalRight : b.Canonical) (apart : Apart (a, b)) :
    (p.expand goal).Onward (Divided p (a, b)) := by
  unfold Problem.expand
  rw [sameLeft, sameRight]
  cases a with
  | collection kind' left leftFrame =>
    cases b with
    | collection kind'' right rightFrame =>
      obtain rfl : kind' = kind := Option.some.inj kindLeft
      obtain rfl : kind'' = kind' := Option.some.inj kindRight
      dsimp only
      rw [if_pos rfl]
      split
      · exact onward_ofOption fun next => divides_expandOrdered canonicalLeft canonicalRight apart.frames
      · exact onward_expandUnordered canonicalLeft canonicalRight apart.frames
    | _ => cases kindRight
  | _ => cases kindLeft

end Expansion

end Unification

end Reach
