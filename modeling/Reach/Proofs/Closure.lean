import Reach.Proofs.Discipline
import Reach.Proofs.Matching
import Reach.Proofs.Preservation
import Reach.Proofs.Unification

/-!
Matching, unification and evaluation do not leave the class of terms of a discipline. Matching takes apart
the subject only, so that nothing is asked of the pattern but of its variables; the frame that unification
brings in must be allowed; and the hooks and the rules of a definition must keep to the discipline.
-/

namespace Reach.Discipline

open Term

variable {k : Discipline} {kind : Kind} {entries : List (Entry Term)} {frame : Option Term}
  {term pattern subject : Term} {sort : TermSort} {v : Variable} {s : Subst}

section Matching

open Matching

variable {p next : Matching.Problem} {d : Deferred} {goals : List Goal}

/-- The variables of the pattern are allowed. -/
def Poses (k : Discipline) (pattern : Term) : Prop :=
  ∀ v ∈ pattern.vars, k.var v

/-- What is bound, and what there is to be matched, is of the class. -/
structure Matchable (k : Discipline) (p : Matching.Problem) : Prop where
  binds : k.Binds p.subst
  goals : ∀ goal ∈ p.goals, k.Poses goal.1 ∧ k.Contains goal.2
  deferred : ∀ d ∈ p.deferred, k.Poses d.goal.1 ∧ k.Fills d.kind d.subject d.subjectFrame

theorem Matchable.addGoals (matchable : k.Matchable p)
    (more : ∀ goal ∈ goals, k.Poses goal.1 ∧ k.Contains goal.2) : k.Matchable (p.addGoals goals) :=
  { matchable with goals := List.forall_mem_append.mpr ⟨matchable.goals, more⟩ }

theorem Matchable.step (matchable : k.Matchable p) (poses : k.Poses pattern)
    (contains : k.Contains subject) (stepped : p.step pattern subject = some next) :
    k.Matchable next := by
  rcases Matching.Problem.step_cases stepped with ⟨_, rfl⟩ | ⟨v, rfl, _, accepted, rfl⟩ |
    ⟨_, _, args, _, args', rfl, rfl, _, _, rfl⟩ | ⟨d, same, rfl⟩
  · exact matchable
  · have allowed : k.var v := poses v (by simp)
    exact { matchable with
      binds := matchable.binds.insert allowed ⟨contains, k.fits_of_accepts accepted⟩ }
  · have inner := (Everywhere.app_iff.mp contains).2
    refine matchable.addGoals fun goal member => ?_
    obtain ⟨left, right⟩ := List.of_mem_zip member
    exact ⟨fun v occurs => poses v (mem_vars_app.mpr ⟨goal.1, left, occurs⟩), inner goal.2 right⟩
  · obtain ⟨rfl, rfl⟩ := Prod.mk.inj same
    refine { matchable with deferred := List.forall_mem_append.mpr ⟨matchable.deferred, ?_⟩ }
    exact List.forall_mem_singleton.mpr ⟨poses, contains_collection_iff.mp contains⟩

theorem contains_of_alternative (fills : k.Fills d.kind d.subject d.subjectFrame)
    (member : goals ∈ d.alternatives) : ∀ goal ∈ goals, k.Contains goal.2 := by
  intro goal inside
  rcases (alternative_shape member).2 goal inside with ⟨entry, among, part⟩ |
    ⟨rest, included, same⟩
  · exact fills.parts entry among goal.2 part
  · rw [same]
    exact (fills.subset included).normalized.contains

theorem Matchable.expand (matchable : k.Matchable p) (poses : k.Poses d.goal.1)
    (fills : k.Fills d.kind d.subject d.subjectFrame) (member : next ∈ (p.expand d).toList) :
    k.Matchable next := by
  rw [Matching.Problem.expand_eq] at member
  obtain ⟨goals, among, rfl⟩ := List.mem_map.mp member
  refine matchable.addGoals fun goal inside =>
    ⟨fun v occurs => ?_, contains_of_alternative fills among goal inside⟩
  exact poses v ((Matching.Problem.vars_alternative among v).mpr ⟨goal, inside, occurs⟩)

theorem Matchable.advance {problems : Enumeration Matching.Problem} (matchable : k.Matchable p)
    (progress : p.advance = .branches problems) : ∀ next ∈ problems.toList, k.Matchable next := by
  unfold Matching.Problem.advance at progress
  split at progress
  · next pattern subject goals pending =>
    cases progress
    have split := matchable.goals
    rw [pending] at split
    obtain ⟨⟨poses, contains⟩, later⟩ := List.forall_mem_cons.mp split
    have rest : k.Matchable { p with goals } := { matchable with goals := later }
    intro next member
    cases stepped : Matching.Problem.step { p with goals } pattern subject with
    | none =>
      rw [stepped] at member
      cases member
    | some problem =>
      rw [stepped] at member
      obtain rfl := List.mem_singleton.mp member
      exact rest.step poses contains stepped
  · next d deferred done pending =>
    cases progress
    have split := matchable.deferred
    rw [pending] at split
    obtain ⟨⟨poses, fills⟩, later⟩ := List.forall_mem_cons.mp split
    have rest : k.Matchable { p with deferred } := { matchable with deferred := later }
    exact fun next member => rest.expand poses fills member
  · cases progress

theorem Matchable.binds_of_solved {found : Subst} (matchable : k.Matchable p)
    (progress : p.advance = .solved found) : k.Binds found := by
  unfold Matching.Problem.advance at progress
  split at progress
  · cases progress
  · cases progress
  · cases progress
    exact matchable.binds

theorem Matchable.solve (matchable : k.Matchable p) (steps : Nat) :
    ∀ found ∈ (p.solve steps).toList, k.Binds found := by
  induction steps generalizing p with
  | zero =>
    intro found member
    rw [Matching.Problem.solve] at member
    split at member
    · next progress =>
      obtain rfl := List.mem_singleton.mp member
      exact matchable.binds_of_solved progress
    · cases member
  | succ steps ih =>
    intro found member
    rw [Matching.Problem.solve] at member
    split at member
    · next progress =>
      obtain rfl := List.mem_singleton.mp member
      exact matchable.binds_of_solved progress
    · next problems progress =>
      rw [Enumeration.toList_flatMap] at member
      obtain ⟨next, among, member⟩ := List.mem_flatMap.mp member
      exact ih (matchable.advance progress next among) found member

/-- A match binds variables to terms of the class, if the subject is one. -/
theorem Binds.matches (binds : k.Binds s) (poses : k.Poses pattern) (contains : k.Contains subject)
    {found : Subst} (member : found ∈ (Matching.enumerateFrom s pattern subject).toList) :
    k.Binds found := by
  have start : k.Matchable { subst := s, goals := [(pattern, subject)], deferred := [] } := by
    refine ⟨binds, fun goal member => ?_, fun d absent => absurd absent List.not_mem_nil⟩
    obtain rfl := List.mem_singleton.mp member
    exact ⟨poses, contains⟩
  exact start.solve _ found member

end Matching

section Unification

open Unification

variable {sig : Signature} {p next : Unification.Problem} {goal : Goal} {goals : List Goal}
  {c : Choice} {left right : List (Entry Term)} {leftFrame rightFrame : Option Term} {fresh : Fresh}

/-- Both sides are of the class. -/
structure Admits (k : Discipline) (goal : Goal) : Prop where
  left : k.Contains goal.1
  right : k.Contains goal.2

/-- What is bound, and both sides of each equation, is of the class. -/
structure Keeps (k : Discipline) (p : Unification.Problem) : Prop where
  binds : k.Binds p.subst
  goals : ∀ goal ∈ p.goals, k.Admits goal
  deferred : ∀ goal ∈ p.deferred, k.Admits goal
  residual : ∀ goal ∈ p.residual, k.Admits goal

/-- A choice between pairings of two collections of the class. -/
structure Chooses (k : Discipline) (c : Choice) : Prop where
  base : k.Keeps c.base
  left : k.Fills c.kind c.left c.leftFrame
  right : k.Fills c.kind c.right c.rightFrame

/-- A unifier that binds terms of the class, and leaves equations between such terms. -/
structure Unifies (k : Discipline) (unifier : Unifier) : Prop where
  binds : k.Binds unifier.subst
  residual : ∀ goal ∈ unifier.residual, k.Admits goal

/-- What a problem of the class comes to is of the class. -/
def Follows (k : Discipline) : Unification.Progress → Prop
  | .solved unifier => k.Unifies unifier
  | .failed => True
  | .next problem => k.Keeps problem
  | .choose c => k.Chooses c

theorem Keeps.addGoals (keeps : k.Keeps p) (more : ∀ goal ∈ goals, k.Admits goal) :
    k.Keeps (p.addGoals goals) :=
  { keeps with goals := List.forall_mem_append.mpr ⟨keeps.goals, more⟩ }

theorem Keeps.addGoal (keeps : k.Keeps p) (more : k.Admits goal) : k.Keeps (p.addGoals [goal]) :=
  keeps.addGoals (List.forall_mem_singleton.mpr more)

theorem Keeps.addResidual (keeps : k.Keeps p) (more : k.Admits goal) : k.Keeps (p.addResidual goal) :=
  { keeps with
    residual := List.forall_mem_append.mpr ⟨keeps.residual, List.forall_mem_singleton.mpr more⟩ }

theorem Keeps.apply (keeps : k.Keeps p) (admits : k.Admits goal) :
    k.Admits (p.subst.apply goal.1, p.subst.apply goal.2) :=
  ⟨(keeps.binds.apply admits.left).contains, (keeps.binds.apply admits.right).contains⟩

theorem Keeps.bind (keeps : k.Keeps p) (allowed : k.var v) (contains : k.Contains term)
    (made : p.bind sig v term = some next) : k.Keeps next := by
  obtain ⟨⟨w, image⟩, oriented, made⟩ := Option.bind_eq_some_iff.mp made
  obtain ⟨accepted, shape⟩ := Unification.Problem.orient_eq_some oriented
  have facts : k.var w ∧ k.Contains image := by
    rcases shape with ⟨rfl, rfl⟩ | ⟨rfl, rfl⟩
    · exact ⟨allowed, contains⟩
    · exact ⟨contains.here, Everywhere.var_iff.mpr allowed⟩
  obtain ⟨allowedVar, containsImage⟩ := facts
  dsimp only at made
  split at made
  · split at made
    · cases made
      exact keeps.addResidual ⟨Everywhere.var_iff.mpr allowedVar, containsImage⟩
    · cases made
  · cases made
    exact { keeps with
      binds := keeps.binds.compose
        (binds_single allowedVar ⟨containsImage, k.fits_of_accepts accepted⟩) }

theorem Keeps.step (keeps : k.Keeps p) (admits : k.Admits goal)
    (made : p.step sig goal = some next) : k.Keeps next := by
  obtain ⟨first, second⟩ := keeps.apply admits
  unfold Unification.Problem.step at made
  dsimp only at made first second
  generalize p.subst.apply goal.1 = a at *
  generalize p.subst.apply goal.2 = b at *
  split at made
  · cases made
    exact keeps
  split at made
  · exact keeps.bind first.here second made
  · exact keeps.bind second.here first made
  · split at made
    · cases made
      exact keeps.addResidual ⟨first, second⟩
    split at made
    · split at made
      · cases made
        have inner := (Everywhere.app_iff.mp first).2
        have inner' := (Everywhere.app_iff.mp second).2
        exact keeps.addGoals fun goal member =>
          ⟨inner goal.1 (List.of_mem_zip member).1, inner' goal.2 (List.of_mem_zip member).2⟩
      · cases made
    · split at made
      · cases made
        exact { keeps with
          deferred := List.forall_mem_append.mpr
            ⟨keeps.deferred, List.forall_mem_singleton.mpr ⟨first, second⟩⟩ }
      · cases made
    · cases made

theorem admits_of_allGoals {pairs : List (Entry Term × Entry Term)}
    (made : Pairing.allGoals pairs = some goals) (filled : k.Fills kind left leftFrame)
    (filled' : k.Fills kind right rightFrame)
    (inside : ∀ pair ∈ pairs, pair.1 ∈ left ∧ pair.2 ∈ right) : ∀ goal ∈ goals, k.Admits goal := by
  have sides := forall_of_allGoals k.Contains made
    (fun pair member => filled.parts pair.1 (inside pair member).1)
    fun pair member => filled'.parts pair.2 (inside pair member).2
  exact fun goal member => ⟨(sides goal member).1, (sides goal member).2⟩

theorem Fills.frame_getD (filled : k.Fills kind left leftFrame) :
    k.Contains (leftFrame.getD (.empty kind)) := by
  cases leftFrame with
  | some frame => exact (filled.last frame rfl).contains
  | none => exact contains_collection_iff.mpr ⟨nofun, nofun, nofun⟩

/-- The entries beyond the other side, with the frame that they come with. -/
theorem Fills.beyond (filled : k.Fills kind left leftFrame) (count : Nat) :
    k.Contains (.normalized kind (left.drop count) leftFrame) :=
  (filled.subset fun _ => List.mem_of_mem_drop).normalized.contains

theorem Keeps.expandOrdered (keeps : k.Keeps p) (filled : k.Fills kind left leftFrame)
    (filled' : k.Fills kind right rightFrame)
    (made : p.expandOrdered kind left right leftFrame rightFrame = some next) : k.Keeps next := by
  obtain ⟨goals, front, made⟩ := Option.bind_eq_some_iff.mp made
  have begun : k.Keeps (p.addGoals goals) := keeps.addGoals
    (admits_of_allGoals front filled filled' fun pair => List.of_mem_zip)
  have beyond := filled.beyond right.length
  have beyond' := filled'.beyond left.length
  dsimp only at made
  split at made
  · next rest =>
    obtain ⟨frame, rfl, made⟩ := Option.bind_eq_some_iff.mp made
    cases made
    exact begun.addGoal ⟨(filled'.last frame rfl).contains, rest ▸ beyond⟩
  · next rest =>
    obtain ⟨frame, rfl, made⟩ := Option.bind_eq_some_iff.mp made
    cases made
    exact begun.addGoal ⟨(filled.last frame rfl).contains, rest ▸ beyond'⟩
  · split at made
    · cases made
      exact begun
    · cases made
      exact begun.addGoal ⟨filled.frame_getD, filled'.frame_getD⟩

theorem Keeps.expandUnordered (keeps : k.Keeps p) (filled : k.Fills kind left leftFrame)
    (filled' : k.Fills kind right rightFrame) :
    k.Follows (p.expandUnordered kind left right leftFrame rightFrame) := by
  unfold Unification.Problem.expandUnordered
  split
  · trivial
  · next goals left' right' cancelled =>
    obtain ⟨pairs, spec⟩ := Pairing.exists_cancels cancelled
    have begun : k.Keeps (p.addGoals goals) := by
      refine keeps.addGoals fun goal member => ?_
      obtain ⟨pair, present, inLeft, inRight⟩ := spec.mem_goals member
      have here : pair.1 ∈ left :=
        spec.left.mem_iff.mpr (List.mem_append_left _ (List.mem_map_of_mem present))
      have there : pair.2 ∈ right :=
        spec.right.mem_iff.mpr (List.mem_append_left _ (List.mem_map_of_mem present))
      exact ⟨filled.parts _ here _ inLeft, filled'.parts _ there _ inRight⟩
    dsimp only
    split
    · refine ⟨begun, filled.subset fun entry member => ?_, filled'.subset fun entry member => ?_⟩
      · exact spec.left.mem_iff.mpr (List.mem_append_right _ member)
      · exact spec.right.mem_iff.mpr (List.mem_append_right _ member)
    · split
      · exact begun.addGoal ⟨(filled.last _ rfl).contains, (filled'.last _ rfl).contains⟩
      · exact begun

theorem follows_ofOption {made : Option Unification.Problem} (keeps : ∀ next ∈ made, k.Keeps next) :
    k.Follows (.ofOption made) := by
  cases made with
  | none => trivial
  | some next => exact keeps next rfl

theorem Keeps.expand (keeps : k.Keeps p) (admits : k.Admits goal) : k.Follows (p.expand goal) := by
  obtain ⟨first, second⟩ := keeps.apply admits
  unfold Unification.Problem.expand
  dsimp only at first second
  generalize p.subst.apply goal.1 = a at *
  generalize p.subst.apply goal.2 = b at *
  split
  · split
    · next same =>
      subst same
      have filled := contains_collection_iff.mp first
      have filled' := contains_collection_iff.mp second
      split
      · exact follows_ofOption fun next made => keeps.expandOrdered filled filled' made
      · exact keeps.expandUnordered filled filled'
    · exact keeps.addGoal ⟨first, second⟩
  · exact keeps.addGoal ⟨first, second⟩

theorem Keeps.finish (keeps : k.Keeps p) : k.Unifies p.finish where
  binds := keeps.binds
  residual goal member := by
    obtain ⟨source, among, rfl⟩ := List.mem_map.mp (List.mem_of_mem_filter member)
    exact keeps.apply (keeps.residual source among)

/-- One step of a run. -/
theorem Keeps.advance (keeps : k.Keeps p) : k.Follows (p.advance sig) := by
  unfold Unification.Problem.advance
  split
  · next goal goals pending =>
    have split := keeps.goals
    rw [pending] at split
    obtain ⟨here, later⟩ := List.forall_mem_cons.mp split
    have rest : k.Keeps { p with goals } := { keeps with goals := later }
    exact follows_ofOption fun next made => rest.step here made
  · next goal deferred done pending =>
    have split := keeps.deferred
    rw [pending] at split
    obtain ⟨here, later⟩ := List.forall_mem_cons.mp split
    have rest : k.Keeps { p with deferred } := { keeps with deferred := later }
    exact rest.expand here
  · exact keeps.finish

/-- One pairing of a choice, if the frame that it brings in is allowed. -/
theorem Chooses.branch {pairing : List Nat × List Nat} (chooses : k.Chooses c)
    (allowed : ∀ v, c.Draws fresh v → k.var v) (made : (c.branch pairing fresh).1 = some next) :
    k.Keeps next := by
  obtain ⟨front, paired, rfl⟩ := branch_eq_some made
  refine chooses.base.addGoals (List.forall_mem_append.mpr ⟨?_, ?_⟩)
  · refine admits_of_allGoals paired chooses.left chooses.right fun pair member => ?_
    exact ⟨Pairing.mem_of_mem_select (List.of_mem_zip member).1,
      Pairing.mem_of_mem_select (List.of_mem_zip member).2⟩
  · have unframed : ∀ rest ∈ (none : Option Term), k.Has c.kind.sort rest := nofun
    have takesLeft {frame : Option Term} (last : ∀ rest ∈ frame, k.Has c.kind.sort rest) :
        k.Contains (.normalized c.kind (Pairing.remaining c.left pairing.1) frame) :=
      ((chooses.left.subset fun _ => Pairing.mem_remaining).withFrame last).normalized.contains
    have takesRight {frame : Option Term} (last : ∀ rest ∈ frame, k.Has c.kind.sort rest) :
        k.Contains (.normalized c.kind (Pairing.remaining c.right pairing.2) frame) :=
      ((chooses.right.subset fun _ => Pairing.mem_remaining).withFrame last).normalized.contains
    cases shapeLeft : c.leftFrame with
    | none =>
      cases shapeRight : c.rightFrame with
      | none => simp [Choice.frameGoals, shapeLeft, shapeRight]
      | some frame =>
        simp only [Choice.frameGoals, shapeLeft, shapeRight, List.forall_mem_singleton]
        exact ⟨(chooses.right.last frame shapeRight).contains, takesLeft unframed⟩
    | some frame =>
      cases shapeRight : c.rightFrame with
      | none =>
        simp only [Choice.frameGoals, shapeLeft, shapeRight, List.forall_mem_singleton]
        exact ⟨(chooses.left.last frame shapeLeft).contains, takesRight unframed⟩
      | some frame' =>
        have last : ∀ rest ∈ some (Term.var (c.shared fresh)), k.Has c.kind.sort rest := by
          intro rest same
          cases same
          exact has_var (allowed _ ⟨by rw [shapeLeft]; rfl, by rw [shapeRight]; rfl, rfl⟩)
        rw [frameGoals_both shapeLeft shapeRight, List.forall_mem_cons, List.forall_mem_singleton]
        exact ⟨⟨(chooses.left.last frame shapeLeft).contains, takesRight last⟩,
          (chooses.right.last frame' shapeRight).contains, takesLeft last⟩

theorem keeps_start {a b : Term} (left : k.Contains a) (right : k.Contains b) :
    k.Keeps (start a b) where
  binds := binds_empty
  goals := List.forall_mem_singleton.mpr ⟨left, right⟩
  deferred := nofun
  residual := nofun

theorem Follows.keeps {progress : Unification.Progress} (follows : k.Follows progress)
    (allowed : ∀ v, progress.Draws fresh v → k.var v) (leads : progress.LeadsTo fresh next) :
    k.Keeps next := by
  cases progress with
  | solved unifier => cases leads
  | failed => cases leads
  | next problem => exact leads ▸ follows
  | choose c =>
    obtain ⟨pairing, _, made⟩ := leads
    exact follows.branch allowed made

theorem Keeps.run {unifier : Unifier} (allowed : ∀ v, k.var v) (keeps : k.Keeps p)
    (run : Run sig p unifier) : k.Unifies unifier := by
  induction run with
  | solved done =>
    have follows : k.Follows (Unification.Problem.advance sig _) := keeps.advance
    rw [done] at follows
    exact follows
  | step leads _ ih =>
    exact ih (keeps.advance.keeps (fun v _ => allowed v) leads)

end Unification

section Evaluation

open Evaluation

variable {d : Definition} {limit depth : Nat} {value : Term} {label : String} {args : List Term}
  {rule : Rule}

/-- A rule of terms of the class. -/
structure Admissible (k : Discipline) (rule : Rule) : Prop where
  lhs : k.Contains rule.lhs
  rhs : k.Contains rule.rhs
  requires : k.Contains rule.requires
  ensures : k.Contains rule.ensures
  lookups : ∀ lookup ∈ rule.lookups, k.Contains lookup.pattern ∧ k.Contains lookup.expr
  freshConstants : ∀ v ∈ rule.freshConstants, k.var v
  freshVariables : ∀ v ∈ rule.freshVariables, k.var v

/-- What a hook or a rule of a function gives is of the class and may stand for the call. -/
structure Governs (k : Discipline) (d : Definition) : Prop where
  hooks : ∀ {label sort args value}, k.app label sort args → (∀ arg ∈ args, k.Contains arg) →
    d.signature.callHook label args = some value → k.Has sort value
  rules : ∀ label, ∀ rule ∈ d.functionRules label, k.Admissible rule
  results : ∀ {label sort args}, k.app label sort args →
    ∀ rule ∈ d.functionRules label, k.fits sort rule.rhs.sort

/-- Lookups bind terms of the class, if evaluation does not leave it. -/
theorem binds_of_lookups {eval : Eval} {steps : List Lookup} {bindings found : List Subst}
    (stays : ∀ term value, k.Contains term → eval term = .ok value → k.Contains value)
    (terms : ∀ lookup ∈ steps, k.Contains lookup.pattern ∧ k.Contains lookup.expr)
    (binds : ∀ s ∈ bindings, k.Binds s) (made : lookups eval steps bindings = .ok found) :
    ∀ s ∈ found, k.Binds s := by
  induction steps generalizing bindings with
  | nil =>
    cases made
    exact binds
  | cons lookup rest ih =>
    obtain ⟨⟨pattern, expr⟩, later⟩ := List.forall_mem_cons.mp terms
    obtain ⟨extended, looked, made⟩ := bind_eq_ok_iff.mp made
    refine ih later (List.forall_mem_flatten.mpr ?_) made
    refine Definition.forall_of_mapM_eq_ok (fun s member values one => ?_) looked
    obtain ⟨value, evaluated, one⟩ := bind_eq_ok_iff.mp one
    cases one
    have contains := stays _ value ((binds s member).apply expr).contains evaluated
    exact fun extension among => (binds s member).matches (fun v => allowed_of_mem pattern) contains among

theorem has_node {onCall : String → Term → Except Failure Term}
    (hooks : ∀ value, d.signature.callHook label args = some value → k.Has sort value)
    (calls : ∀ value, onCall label (.app label sort args) = .ok value → k.Has sort value)
    (whole : k.Contains (.app label sort args)) :
    k.Has sort ((algebra d.signature onCall).app label sort args) := by
  have unchanged : k.Has sort (.app label sort args) := has_self whole
  cases made : node d.signature onCall label sort args with
  | error failure => simpa [algebra, made, Except.toOption] using unchanged
  | ok value =>
    rw [algebra_app made]
    unfold node at made
    split at made
    · next called =>
      cases made
      exact hooks _ called
    · dsimp only at made
      split at made
      · exact calls value made
      · cases made
        exact unchanged

namespace Governs

variable (governs : k.Governs d)
include governs

/-- A rule of a function gives what may stand for the call. -/
theorem has_tryRules (whole : k.Contains (.app label sort args))
    (stays : ∀ term value, k.Contains term → d.evaluateWithin limit depth term = .ok value →
      k.Has term.sort value)
    (made : tryRules (d.evaluateWithin limit depth) (.app label sort args) (d.functionRules label) =
      .ok value) : k.Has sort value := by
  rcases of_tryRules made with rfl | ⟨rule, member, s, matched, bindings, looked, s', among, evaluated⟩
  · exact has_self whole
  · have admissible := governs.rules label rule member
    have binds : k.Binds s' := by
      refine binds_of_lookups (fun term value contains made => (stays term value contains made).contains)
        admissible.lookups ?_ looked s' among
      exact List.forall_mem_singleton.mpr
        (binds_empty.matches (fun v => allowed_of_mem admissible.lhs) whole matched)
    have instantiated := binds.apply admissible.rhs
    have fits := governs.results whole.here rule member
    exact ((stays _ value instantiated.contains evaluated).mono instantiated.fits).mono fits

/-- The value of a term of the class may stand for the term. -/
theorem has_evaluateWithin (contains : k.Contains term)
    (made : d.evaluateWithin limit depth term = .ok value) : k.Has term.sort value := by
  induction depth generalizing term value with
  | zero =>
    rw [← Definition.fold_of_evaluateWithin made]
    refine has_fold rfl rfl (fun v => has_var) (fun label sort args here inner => ?_) contains
    have whole : k.Contains (.app label sort args) := Everywhere.app_iff.mpr ⟨here, inner⟩
    refine has_node (fun value => governs.hooks here inner) (fun value made => ?_) whole
    rw [Definition.call] at made
    split at made
    · cases made
      exact has_self whole
    · cases made
  | succ depth ih =>
    rw [← Definition.fold_of_evaluateWithin made]
    refine has_fold rfl rfl (fun v => has_var) (fun label sort args here inner => ?_) contains
    have whole : k.Contains (.app label sort args) := Everywhere.app_iff.mpr ⟨here, inner⟩
    refine has_node (fun value => governs.hooks here inner) (fun value made => ?_) whole
    exact governs.has_tryRules whole (fun term value => ih) made

theorem has_evaluate (contains : k.Contains term) (made : d.evaluate limit term = .ok value) :
    k.Has term.sort value :=
  governs.has_evaluateWithin contains made

/-- The lookups of a rule bind terms of the class. -/
theorem binds_lookups {found : List Subst} (binds : k.Binds s)
    (terms : ∀ lookup ∈ rule.lookups, k.Contains lookup.pattern ∧ k.Contains lookup.expr)
    (made : d.lookups limit rule s = .ok found) : ∀ s ∈ found, k.Binds s :=
  binds_of_lookups (fun _ _ contains made => (governs.has_evaluate contains made).contains) terms
    (List.forall_mem_singleton.mpr binds) made

end Governs

end Evaluation

end Reach.Discipline
