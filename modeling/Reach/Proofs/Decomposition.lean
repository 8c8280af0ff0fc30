import Reach.Proofs.Pairing
import Reach.Proofs.Subterm
import Reach.Unification

/-!
Equations between collections and the goals that unification puts in their place. Whatever equates
the two sides of each of the goals equates the collections.
-/

namespace Reach

/-- The fold makes the same of both sides. -/
def Term.Algebra.Equates (algebra : Term.Algebra Term) (goal : Goal) : Prop :=
  goal.1.fold algebra = goal.2.fold algebra

/-- Both sides are canonical terms of the fragment. -/
def Term.Fragment.Admits (fragment : Term.Fragment) (goal : Goal) : Prop :=
  goal.1.Proper fragment ∧ goal.2.Proper fragment

namespace Unification

open Term

/-- These goals are fit to take the place of another. -/
structure Suffice (fragment : Fragment) (goals : List Goal) (goal : Goal) : Prop where
  admitted : ∀ part ∈ goals, fragment.Admits part
  equates : ∀ algebra : Algebra Term, algebra.Normalizing →
    (∀ part ∈ goals, algebra.Equates part) → algebra.Equates goal

variable {fragment : Fragment} {algebra : Algebra Term} {kind : Kind}
  {left right left' right' : List (Entry Term)} {leftFrame rightFrame : Option Term}
  {goals : List Goal}

section Goals

theorem Suffice.append {goals' : List Goal} {goal between : Goal}
    (first : Suffice fragment goals between) (admitted : ∀ part ∈ goals', fragment.Admits part)
    (step : ∀ algebra : Algebra Term, algebra.Normalizing → algebra.Equates between →
      (∀ part ∈ goals', algebra.Equates part) → algebra.Equates goal) :
    Suffice fragment (goals' ++ goals) goal where
  admitted := List.forall_mem_append.mpr ⟨admitted, first.admitted⟩
  equates algebra normalizing solved := by
    obtain ⟨outer, inner⟩ := List.forall_mem_append.mp solved
    exact step algebra normalizing (first.equates algebra normalizing inner) outer

theorem suffice_self {goal : Goal} (admitted : fragment.Admits goal) :
    Suffice fragment [goal] goal where
  admitted := by simpa using admitted
  equates _ _ solved := solved goal (by simp)

/-- What holds of the parts of the first entries of some pairs holds of the left sides of their goals, and
so for the second entries and the right sides. -/
theorem sides_of_allGoals {holds holds' : Term → Prop} {pairs : List (Entry Term × Entry Term)}
    (made : Pairing.allGoals pairs = some goals)
    (first : ∀ pair ∈ pairs, ∀ part ∈ pair.1.parts, holds part)
    (second : ∀ pair ∈ pairs, ∀ part ∈ pair.2.parts, holds' part) :
    ∀ goal ∈ goals, holds goal.1 ∧ holds' goal.2 := by
  obtain ⟨lefts, rights⟩ := Pairing.allGoals_parts made
  intro goal member
  constructor
  · have inside : goal.1 ∈ pairs.flatMap fun pair => pair.1.parts :=
      lefts ▸ List.mem_map_of_mem member
    obtain ⟨pair, present, inside⟩ := List.mem_flatMap.mp inside
    exact first pair present goal.1 inside
  · have inside : goal.2 ∈ pairs.flatMap fun pair => pair.2.parts :=
      rights ▸ List.mem_map_of_mem member
    obtain ⟨pair, present, inside⟩ := List.mem_flatMap.mp inside
    exact second pair present goal.2 inside

/-- What holds of the parts of some pairs of entries holds of both sides of their goals. -/
theorem forall_of_allGoals (holds : Term → Prop) {pairs : List (Entry Term × Entry Term)}
    (made : Pairing.allGoals pairs = some goals)
    (first : ∀ pair ∈ pairs, ∀ part ∈ pair.1.parts, holds part)
    (second : ∀ pair ∈ pairs, ∀ part ∈ pair.2.parts, holds part) :
    ∀ goal ∈ goals, holds goal.1 ∧ holds goal.2 :=
  sides_of_allGoals made first second

/-- Applications of one label are equal if their arguments are. -/
theorem suffice_args {label : String} {sort : TermSort} {args args' : List Term}
    (aligned : args.length = args'.length)
    (admitted : fragment.Admits (.app label sort args, .app label sort args')) :
    Suffice fragment (args.zip args') (.app label sort args, .app label sort args') where
  admitted pair member :=
    ⟨admitted.1.of_app _ (List.of_mem_zip member).1, admitted.2.of_app _ (List.of_mem_zip member).2⟩
  equates algebra normalizing solved := by
    have same := (Pairing.map_eq_iff_forall_zip aligned).mpr solved
    rw [Algebra.Equates, fold_app, fold_app, same]

end Goals

section Ordered

/-- As a frame an empty collection is as good as none. -/
theorem normalized_getD_empty (normalizing : algebra.Normalizing)
    (entries : List (Entry Term)) (frame : Option Term) :
    normalized kind entries (some ((frame.getD (.empty kind)).fold algebra)) =
      normalized kind entries (frame.map (fold algebra)) := by
  cases frame with
  | some rest => rfl
  | none =>
    have bare : (Term.empty kind).fold algebra = normalized kind [] none := by
      rw [Term.empty, normalizing.fold_collection_eq]
      rfl
    rw [Option.getD_none, bare, normalized_nested, List.append_nil]
    rfl

/-- A frame that takes what is beyond the other side makes up the difference. -/
theorem equates_of_frame (normalizing : algebra.Normalizing) {rest : List (Entry Term)}
    {frame : Term}
    (common : left.map (Entry.map (fold algebra)) = right.map (Entry.map (fold algebra)))
    (solved : algebra.Equates (frame, .normalized kind rest leftFrame)) :
    algebra.Equates
      (.collection kind (left ++ rest) leftFrame, .collection kind right (some frame)) := by
  rw [Algebra.Equates] at solved ⊢
  rw [normalizing.fold_normalized] at solved
  rw [normalizing.fold_collection_eq, normalizing.fold_collection_eq, Option.map_some, solved,
    normalized_nested, List.map_append, common]

theorem addGoals_addGoals (p : Problem) (goals goals' : List Goal) :
    (p.addGoals goals).addGoals goals' = p.addGoals (goals ++ goals') := by
  simp [Problem.addGoals]

/-- The entries beyond the other side, with the frame that they come with. -/
theorem proper_rest (count : Nat) (proper : (collection kind left leftFrame).Proper fragment) :
    (normalized kind (left.drop count) leftFrame).Proper fragment :=
  .normalized proper.within.here
    (proper.of_entries.subset fun _ => List.mem_of_mem_drop) proper.of_frame

theorem proper_getD_empty (proper : (collection kind left leftFrame).Proper fragment) :
    (leftFrame.getD (.empty kind)).Proper fragment := by
  cases leftFrame with
  | some frame => exact proper.of_frame.proper frame rfl
  | none =>
    have empty : (normalized kind [] none).Proper fragment :=
      .normalized proper.within.here ⟨nofun, nofun⟩ .none
    rwa [normalized_nil_none] at empty

theorem suffice_expandOrdered {p next : Problem}
    (admitted : fragment.Admits (.collection kind left leftFrame, .collection kind right rightFrame))
    (made : p.expandOrdered kind left right leftFrame rightFrame = some next) :
    ∃ goals, next = p.addGoals goals ∧
      Suffice fragment goals
        (.collection kind left leftFrame, .collection kind right rightFrame) := by
  obtain ⟨goals, front, made⟩ := Option.bind_eq_some_iff.mp made
  obtain ⟨properLeft, properRight⟩ := admitted
  have admittedFront : ∀ goal ∈ goals, fragment.Admits goal := by
    refine forall_of_allGoals (·.Proper fragment) front (fun pair member => ?_) fun pair member => ?_
    · exact properLeft.of_entries.parts _ (List.of_mem_zip member).1
    · exact properRight.of_entries.parts _ (List.of_mem_zip member).2
  have common (algebra : Algebra Term) (solved : ∀ goal ∈ goals, algebra.Equates goal) :
      (left.take right.length).map (Entry.map (fold algebra)) =
        (right.take left.length).map (Entry.map (fold algebra)) :=
    Pairing.map_take_eq (Pairing.forall_map_eq_map_iff.mpr ⟨goals, front, solved⟩)
  have split := left.take_append_drop right.length
  have split' := right.take_append_drop left.length
  dsimp only at made
  split at made
  · -- The left side is longer, so that all of the right side is in front.
    next first rest beyond =>
    obtain ⟨frame, rfl, made⟩ := Option.bind_eq_some_iff.mp made
    cases made
    have whole : right.take left.length = right := by
      refine List.take_of_length_le (Nat.le_of_lt ?_)
      exact List.length_lt_of_drop_ne_nil (by rw [beyond]; exact List.cons_ne_nil _ _)
    refine ⟨_, addGoals_addGoals p _ _, List.forall_mem_append.mpr ⟨admittedFront, ?_⟩, ?_⟩
    · rw [List.forall_mem_singleton, ← beyond]
      exact ⟨properRight.of_frame.proper frame rfl, proper_rest _ properLeft⟩
    · intro algebra normalizing solved
      obtain ⟨front, last⟩ := List.forall_mem_append.mp solved
      rw [← split, beyond]
      refine equates_of_frame normalizing ?_ (last _ (by simp))
      rw [common algebra front, whole]
  · next first rest level beyond =>
    obtain ⟨frame, rfl, made⟩ := Option.bind_eq_some_iff.mp made
    cases made
    have whole : left.take right.length = left :=
      List.take_of_length_le (List.drop_eq_nil_iff.mp level)
    refine ⟨_, addGoals_addGoals p _ _, List.forall_mem_append.mpr ⟨admittedFront, ?_⟩, ?_⟩
    · rw [List.forall_mem_singleton, ← beyond]
      exact ⟨properLeft.of_frame.proper frame rfl, proper_rest _ properRight⟩
    · intro algebra normalizing solved
      obtain ⟨front, last⟩ := List.forall_mem_append.mp solved
      rw [← split', beyond]
      refine Eq.symm (equates_of_frame normalizing ?_ (last _ (by simp)))
      rw [← common algebra front, whole]
  · next level level' =>
    have whole : left.take right.length = left :=
      List.take_of_length_le (List.drop_eq_nil_iff.mp level)
    have whole' : right.take left.length = right :=
      List.take_of_length_le (List.drop_eq_nil_iff.mp level')
    rw [whole, whole'] at common
    split at made
    · cases made
      refine ⟨goals, rfl, admittedFront, fun algebra normalizing solved => ?_⟩
      rw [Algebra.Equates, fold_collection, fold_collection, common algebra solved]
    · cases made
      refine ⟨_, addGoals_addGoals p _ _, List.forall_mem_append.mpr ⟨admittedFront, ?_⟩, ?_⟩
      · rw [List.forall_mem_singleton]
        exact ⟨proper_getD_empty properLeft, proper_getD_empty properRight⟩
      · intro algebra normalizing solved
        obtain ⟨front, last⟩ := List.forall_mem_append.mp solved
        have frames : algebra.Equates (leftFrame.getD (.empty kind), rightFrame.getD (.empty kind)) :=
          last _ (by simp)
        rw [Algebra.Equates] at frames ⊢
        rw [normalizing.fold_collection_eq, normalizing.fold_collection_eq, common algebra front,
          ← normalized_getD_empty normalizing, ← normalized_getD_empty normalizing, frames]

end Ordered

section Unordered

variable {first second rest rest' : List (Entry Term)}

/-- Entries that were put side by side may be left out of an equation between collections. -/
theorem equates_of_split (normalizing : algebra.Normalizing) (unordered : kind.ordered = false)
    (split : left.Perm (first ++ rest)) (split' : right.Perm (second ++ rest'))
    (same : first.map (Entry.map (fold algebra)) = second.map (Entry.map (fold algebra)))
    (solved : normalized kind (rest.map (Entry.map (fold algebra))) (leftFrame.map (fold algebra)) =
      normalized kind (rest'.map (Entry.map (fold algebra))) (rightFrame.map (fold algebra))) :
    algebra.Equates (.collection kind left leftFrame, .collection kind right rightFrame) := by
  have parted {entries front back : List (Entry Term)} {frame : Option Term}
      (split : entries.Perm (front ++ back)) :
      (Term.collection kind entries frame).fold algebra =
        normalized kind (front.map (Entry.map (fold algebra)))
          (some (normalized kind (back.map (Entry.map (fold algebra))) (frame.map (fold algebra)))) := by
    rw [normalizing.fold_collection_eq, normalized_nested, ← List.map_append]
    exact normalized_congr _ (Kind.same_of_perm unordered (split.map _))
  rw [Algebra.Equates, parted split, parted split', same, solved]

private theorem suffice_cancel {c : Pairing.Cancelled} (unordered : kind.ordered = false)
    (cancelled : Pairing.cancel false left right = some c)
    (admitted : fragment.Admits (.collection kind left leftFrame, .collection kind right rightFrame))
    (inner : Suffice fragment goals
      (.collection kind c.left leftFrame, .collection kind c.right rightFrame)) :
    Suffice fragment (c.goals ++ goals)
      (.collection kind left leftFrame, .collection kind right rightFrame) := by
  obtain ⟨pairs, spec⟩ := Pairing.exists_cancels cancelled
  obtain ⟨properLeft, properRight⟩ := admitted
  refine inner.append (fun goal member => ?_) fun algebra normalizing between solved => ?_
  · obtain ⟨pair, present, inLeft, inRight⟩ := spec.mem_goals member
    have here : pair.1 ∈ left :=
      spec.left.mem_iff.mpr (List.mem_append_left _ (List.mem_map_of_mem present))
    have there : pair.2 ∈ right :=
      spec.right.mem_iff.mpr (List.mem_append_left _ (List.mem_map_of_mem present))
    exact ⟨properLeft.of_entries.parts _ here _ inLeft, properRight.of_entries.parts _ there _ inRight⟩
  · have keys : ∀ pair ∈ pairs, pair.1.key.fold algebra = pair.2.key.fold algebra :=
      fun pair present => congrArg _ (spec.keys pair present).1
    have same := (spec.solved_iff keys).mp solved
    refine equates_of_split normalizing unordered spec.left spec.right ?_ ?_
    · rw [List.map_map, List.map_map]
      exact List.map_congr_left same
    · rw [← normalizing.fold_collection_eq, ← normalizing.fold_collection_eq]
      exact between

/-- What a choice stands for: an equation between two collections. -/
def Choice.goal (c : Choice) : Goal :=
  (.collection c.kind c.left c.leftFrame, .collection c.kind c.right c.rightFrame)

/-- A choice between pairings of two collections of a fragment. A side without a frame has all its
entries paired. -/
structure Choice.WellFormed (fragment : Fragment) (c : Choice) : Prop where
  unordered : c.kind.ordered = false
  kind : fragment.kind c.kind
  left : ProperEntries fragment c.kind c.left
  right : ProperEntries fragment c.kind c.right
  leftFrame : ProperFrame fragment c.kind c.leftFrame
  rightFrame : ProperFrame fragment c.kind c.rightFrame
  pairings : ∀ pairing ∈ c.pairings.toList,
    Pairing.Injection c.left.length c.right.length pairing ∧
      (c.rightFrame = none → pairing.1.length = c.left.length) ∧
      (c.leftFrame = none → pairing.2.length = c.right.length)

/-- The frame that two frames share beyond the explicit entries. -/
def Choice.shared (c : Choice) (fresh : Fresh) : Variable :=
  (fresh.variableLike { name := "Rest", sort := c.kind.sort }).1

/-- The variable that a choice brings in, where the counter stands at `fresh`. -/
def Choice.Draws (c : Choice) (fresh : Fresh) (v : Variable) : Prop :=
  c.leftFrame.isSome = true ∧ c.rightFrame.isSome = true ∧ v = c.shared fresh

theorem frameGoals_both {c : Choice} {frame frame' : Term} {fresh : Fresh}
    (shapeLeft : c.leftFrame = some frame) (shapeRight : c.rightFrame = some frame') :
    (c.frameGoals rest rest' fresh).1 =
      [(frame, .normalized c.kind rest' (some (.var (c.shared fresh)))),
        (frame', .normalized c.kind rest (some (.var (c.shared fresh))))] := by
  simp [Choice.frameGoals, shapeLeft, shapeRight, Choice.shared]

private theorem suffice_frameGoals {c : Choice} {fresh : Fresh} (wellFormed : c.WellFormed fragment)
    (known : ∀ v, c.Draws fresh v → fragment.var v)
    (insideLeft : ∀ entry ∈ rest, entry ∈ c.left) (insideRight : ∀ entry ∈ rest', entry ∈ c.right)
    (left : c.rightFrame = none → rest = []) (right : c.leftFrame = none → rest' = []) :
    Suffice fragment (c.frameGoals rest rest' fresh).1
      (.collection c.kind rest c.leftFrame, .collection c.kind rest' c.rightFrame) := by
  have takes {frame : Option Term} (last : ProperFrame fragment c.kind frame) :
      (normalized c.kind rest frame).Proper fragment ∧
        (normalized c.kind rest' frame).Proper fragment :=
    ⟨.normalized wellFormed.kind (wellFormed.left.subset insideLeft) last,
      .normalized wellFormed.kind (wellFormed.right.subset insideRight) last⟩
  cases shapeLeft : c.leftFrame with
  | none =>
    cases shapeRight : c.rightFrame with
    | none =>
      rw [left shapeRight, right shapeLeft]
      exact ⟨by simp [Choice.frameGoals, shapeLeft, shapeRight], fun _ _ _ => rfl⟩
    | some frame =>
      have goals : (c.frameGoals rest rest' fresh).1 = [(frame, .normalized c.kind rest none)] := by
        simp [Choice.frameGoals, shapeLeft, shapeRight]
      rw [goals, right shapeLeft]
      refine ⟨List.forall_mem_singleton.mpr ⟨wellFormed.rightFrame.proper frame shapeRight, ?_⟩, ?_⟩
      · exact (takes .none).1
      · intro algebra normalizing solved
        exact @equates_of_frame _ _ [] [] _ normalizing _ _ rfl (List.forall_mem_singleton.mp solved)
  | some frame =>
    cases shapeRight : c.rightFrame with
    | none =>
      have goals : (c.frameGoals rest rest' fresh).1 = [(frame, .normalized c.kind rest' none)] := by
        simp [Choice.frameGoals, shapeLeft, shapeRight]
      rw [goals, left shapeRight]
      refine ⟨List.forall_mem_singleton.mpr ⟨wellFormed.leftFrame.proper frame shapeLeft, ?_⟩, ?_⟩
      · exact (takes .none).2
      · intro algebra normalizing solved
        exact (@equates_of_frame _ _ [] [] _ normalizing _ _ rfl (List.forall_mem_singleton.mp solved)).symm
    | some frame' =>
      have last : ProperFrame fragment c.kind (some (.var (c.shared fresh))) :=
        .some rfl (.var (known _ ⟨by rw [shapeLeft]; rfl, by rw [shapeRight]; rfl, rfl⟩))
      rw [frameGoals_both shapeLeft shapeRight]
      constructor
      · rw [List.forall_mem_cons, List.forall_mem_singleton]
        exact ⟨⟨wellFormed.leftFrame.proper frame shapeLeft, (takes last).2⟩,
          wellFormed.rightFrame.proper frame' shapeRight, (takes last).1⟩
      · intro algebra normalizing solved
        rw [List.forall_mem_cons, List.forall_mem_singleton] at solved
        obtain ⟨here, there⟩ := solved
        rw [Algebra.Equates, normalizing.fold_normalized] at here there
        rw [Algebra.Equates, normalizing.fold_collection_eq, normalizing.fold_collection_eq,
          Option.map_some, Option.map_some, here, there, normalized_nested, normalized_nested]
        exact normalized_congr _ (Kind.same_of_perm wellFormed.unordered List.perm_append_comm)

/-- A side without a frame has all its entries paired. -/
theorem injection_of_mem_pairings {n m : Nat} {pairing : List Nat × List Nat}
    {candidates : Enumeration (List Nat × List Nat)}
    (made : Problem.pairings n m leftFrame.isSome rightFrame.isSome = some candidates)
    (member : pairing ∈ candidates.toList) :
    Pairing.Injection n m pairing ∧ (rightFrame = none → pairing.1.length = n) ∧
      (leftFrame = none → pairing.2.length = m) := by
  cases leftFrame <;> cases rightFrame <;> simp only [Option.isSome] at made <;>
    unfold Problem.pairings at made <;> dsimp only at made
  · split at made
    · cases made
      cases member
    · split at made
      · cases made
      · cases made
        obtain ⟨injection, low, high⟩ := Pairing.mem_injections_iff.mp member
        have := injection.length
        exact ⟨injection, fun _ => by omega, fun _ => by omega⟩
  · split at made
    · cases made
      cases member
    · cases made
      obtain ⟨injection, low, high⟩ := Pairing.mem_injections_iff.mp member
      have := injection.length
      exact ⟨injection, nofun, fun _ => by omega⟩
  · split at made
    · cases made
      cases member
    · cases made
      obtain ⟨injection, low, high⟩ := Pairing.mem_injections_iff.mp member
      exact ⟨injection, fun _ => by omega, nofun⟩
  · split at made
    · cases made
    · cases made
      exact ⟨(Pairing.mem_injections_iff.mp member).1, nofun, nofun⟩

/-- There is nothing to pair only if nothing is left, and frames on both sides or on none. -/
theorem pairings_eq_none (made :
      Problem.pairings left.length right.length leftFrame.isSome rightFrame.isSome = none) :
    left = [] ∧ right = [] ∧ leftFrame.isSome = rightFrame.isSome := by
  cases leftFrame <;> cases rightFrame <;> simp only [Option.isSome] at made ⊢ <;>
    unfold Problem.pairings at made <;> dsimp only at made
  · split at made
    · cases made
    · split at made
      · next same bare =>
        have level : left.length = right.length := not_not.mp same
        exact ⟨List.eq_nil_of_length_eq_zero bare, List.eq_nil_of_length_eq_zero (level ▸ bare), trivial⟩
      · cases made
  · split at made <;> cases made
  · split at made <;> cases made
  · split at made
    · next bare =>
      exact ⟨List.eq_nil_of_length_eq_zero bare.1, List.eq_nil_of_length_eq_zero bare.2, trivial⟩
    · cases made

theorem branch_eq_some {c : Choice} {pairing : List Nat × List Nat} {next : Problem}
    {fresh : Fresh} (made : (c.branch pairing fresh).1 = some next) :
    ∃ goals, Pairing.allGoals (Pairing.paired c.left c.right pairing) = some goals ∧
      next = c.base.addGoals (goals ++ (c.frameGoals (Pairing.remaining c.left pairing.1)
        (Pairing.remaining c.right pairing.2) fresh).1) := by
  unfold Choice.branch at made
  dsimp only at made
  split at made
  · cases made
  · next goals front =>
    cases made
    exact ⟨goals, front, rfl⟩

/-- The goals of one pairing suffice for the equation that the choice is about. -/
theorem suffice_branch {c : Choice} {pairing : List Nat × List Nat} {next : Problem} {fresh : Fresh}
    (wellFormed : c.WellFormed fragment) (known : ∀ v, c.Draws fresh v → fragment.var v)
    (member : pairing ∈ c.pairings.toList) (made : (c.branch pairing fresh).1 = some next) :
    ∃ goals, next = c.base.addGoals goals ∧ Suffice fragment goals c.goal := by
  obtain ⟨front, paired, rfl⟩ := branch_eq_some made
  obtain ⟨injection, usedLeft, usedRight⟩ := wellFormed.pairings pairing member
  have distinct := injection.nodup_left
  have below := injection.below_left
  have inner := suffice_frameGoals wellFormed known
    (fun entry (member : entry ∈ Pairing.remaining c.left pairing.1) => Pairing.mem_remaining member)
    (fun entry (member : entry ∈ Pairing.remaining c.right pairing.2) => Pairing.mem_remaining member)
    (fun none => Pairing.remaining_eq_nil distinct below (usedLeft none))
    (fun none => Pairing.remaining_eq_nil injection.right injection.below (usedRight none))
  have aligned : (Pairing.select c.left pairing.1).length =
      (Pairing.select c.right pairing.2).length := by
    rw [Pairing.length_select below, Pairing.length_select injection.below, injection.length]
  refine ⟨_, rfl, inner.append ?_ fun algebra normalizing between solved => ?_⟩
  · refine forall_of_allGoals (·.Proper fragment) paired (fun pair member => ?_) fun pair member => ?_
    · exact wellFormed.left.parts _ (Pairing.mem_of_mem_select (List.of_mem_zip member).1)
    · exact wellFormed.right.parts _ (Pairing.mem_of_mem_select (List.of_mem_zip member).2)
  · refine equates_of_split normalizing wellFormed.unordered
      (Pairing.select_append_remaining_perm distinct below).symm
      (Pairing.select_append_remaining_perm injection.right injection.below).symm ?_ ?_
    · exact (Pairing.map_eq_iff_forall_zip aligned).mpr
        (Pairing.forall_map_eq_map_iff.mpr ⟨front, paired, solved⟩)
    · rw [← normalizing.fold_collection_eq, ← normalizing.fold_collection_eq]
      exact between

/-- The problems that a progress can lead to at once, where the counter stands at `fresh`. -/
def Progress.LeadsTo (fresh : Fresh) : Progress → Problem → Prop
  | .next problem, target => target = problem
  | .choose c, target => ∃ pairing ∈ c.pairings.toList, (c.branch pairing fresh).1 = some target
  | _, _ => False

/-- The variable that comes in with a progress. -/
def Progress.Draws (fresh : Fresh) : Progress → Variable → Prop
  | .choose c, v => c.Draws fresh v
  | _, _ => False

theorem suffice_expandUnordered {p next : Problem} {fresh : Fresh} (unordered : kind.ordered = false)
    (known : ∀ v, (p.expandUnordered kind left right leftFrame rightFrame).Draws fresh v →
      fragment.var v)
    (admitted : fragment.Admits (.collection kind left leftFrame, .collection kind right rightFrame))
    (leads : (p.expandUnordered kind left right leftFrame rightFrame).LeadsTo fresh next) :
    ∃ goals, next = p.addGoals goals ∧
      Suffice fragment goals
        (.collection kind left leftFrame, .collection kind right rightFrame) := by
  have properLeft := admitted.1
  have properRight := admitted.2
  unfold Problem.expandUnordered at leads known
  split at leads
  · cases leads
  · next goals left' right' cancelled =>
    obtain ⟨pairs, spec⟩ := Pairing.exists_cancels cancelled
    have whole {more : List Goal} (inner : Suffice fragment more _) :=
      suffice_cancel unordered cancelled admitted inner
    rw [cancelled] at known
    dsimp only at leads known
    split at leads
    · next candidates made =>
      rw [made] at known
      obtain ⟨pairing, member, branch⟩ := leads
      have wellFormed : Choice.WellFormed fragment
          { base := p.addGoals goals, kind, left := left', right := right', leftFrame, rightFrame,
            pairings := Pairing.representatives left' right' candidates } := by
        refine ⟨unordered, properLeft.within.here, properLeft.of_entries.subset fun entry member => ?_,
          properRight.of_entries.subset fun entry member => ?_,
          properLeft.of_frame, properRight.of_frame, fun pairing member => ?_⟩
        · exact spec.left.mem_iff.mpr (List.mem_append_right _ member)
        · exact spec.right.mem_iff.mpr (List.mem_append_right _ member)
        · exact injection_of_mem_pairings made
            ((Pairing.representatives_sublist left' right' candidates).subset member)
      obtain ⟨more, same, inner⟩ := suffice_branch wellFormed known member branch
      exact ⟨goals ++ more, same.trans (addGoals_addGoals p goals more), whole inner⟩
    · next made =>
      obtain ⟨bareLeft, bareRight, frames⟩ := pairings_eq_none made
      subst bareLeft bareRight
      split at leads
      · next first second =>
        cases leads
        refine ⟨_, addGoals_addGoals p _ _, whole ⟨?_, fun algebra normalizing solved => ?_⟩⟩
        · exact List.forall_mem_singleton.mpr
            ⟨properLeft.of_frame.proper _ rfl, properRight.of_frame.proper _ rfl⟩
        · have same := List.forall_mem_singleton.mp solved
          rw [Algebra.Equates] at same ⊢
          rw [fold_collection, fold_collection, Option.map_some, Option.map_some, same]
      · next other =>
        cases leads
        have none : leftFrame = none ∧ rightFrame = none := by
          cases leftFrame <;> cases rightFrame <;> simp_all
        obtain ⟨rfl, rfl⟩ := none
        have inner : Suffice fragment [] (.collection kind [] none, .collection kind [] none) :=
          ⟨nofun, fun _ _ _ => rfl⟩
        exact ⟨goals, rfl, by simpa using whole inner⟩

end Unordered

end Unification

end Reach
