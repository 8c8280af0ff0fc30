import Reach.Proofs.NormalForms

/-!
The constraint of a successor is simplified first and projected afterwards, and projection puts the
definitions of variables into other atoms. What comes out has no atom twice and no value left to propagate,
but an atom may have become one that simplification would change, or even a trivial one. So the constraint is
simplified exactly if each of its atoms is, and it is if no eliminated variable was in two atoms.
-/

namespace Reach

/-- What holds everywhere in an instance holds everywhere in the images of the variables. -/
theorem Term.Everywhere.image_of_apply {holds : Term → Prop} {term : Term} {s : Subst} {v : Variable}
    (collections : ∀ kind entries frame, holds (.collection kind entries frame)) (canonical : term.Canonical)
    (whole : Everywhere holds (s.apply term)) (occurs : v ∈ term.vars) : Everywhere holds (s.image v) := by
  induction canonical with
  | var w =>
    obtain rfl := List.mem_singleton.mp occurs
    rwa [Subst.apply_var_eq] at whole
  | token sort value => cases occurs
  | app label sort parts ih =>
    obtain ⟨arg, member, occurs⟩ := mem_vars_app.mp occurs
    rw [Subst.apply_app_eq] at whole
    exact ih arg member ((app_iff.mp whole).2 _ (List.mem_map_of_mem member)) occurs
  | collection parts rest arranged ihEntries ihFrame =>
    rw [Subst.apply_collection_eq s (.collection parts rest arranged)] at whole
    obtain ⟨inner, last⟩ := (normalized_iff collections).mp whole
    rcases mem_vars_collection.mp occurs with
      ⟨entry, member, part, inside, occurs⟩ | ⟨frame, member, occurs⟩
    · refine ihEntries entry member part inside (inner _ (List.mem_map_of_mem member) _ ?_) occurs
      rw [Entry.parts_map]
      exact List.mem_map_of_mem inside
    · exact ihFrame frame member (last _ (Option.mem_map_of_mem _ member)) occurs

namespace Signature

variable {sig : Signature} {term value : Term} {v : Variable}

/-- The labels of a term are labels that it may have. -/
theorem labels_of_within {fragment : Term.Fragment} {allowed : String → Prop}
    (labels : ∀ label sort, fragment.label label sort → allowed label) (within : term.Within fragment) :
    ∀ label ∈ term.labelOccurrences, allowed label := by
  induction within with
  | @intro whole here below ih =>
    intro label occurs
    cases inner : whole.var? with
    | some v =>
      cases whole with
      | var w => cases occurs
      | _ => cases inner
    | none =>
      rw [Term.labelOccurrences, Term.fold_ofChildren _ _ inner] at occurs
      rcases List.mem_append.mp occurs with head | inside
      · cases whole with
        | app name sort args =>
          obtain rfl := List.mem_singleton.mp head
          exact labels label sort here
        | _ => cases head
      · obtain ⟨found, listed, occurs⟩ := List.mem_flatten.mp inside
        obtain ⟨child, member, rfl⟩ := List.mem_map.mp listed
        exact ih child member label occurs

/-- The terms without variables and function applications. -/
def constants (sig : Signature) : Term.Fragment where
  var _ := False
  label label _ := sig.isFunction label = false

theorem isValue_iff : sig.isValue term = true ↔ term.Within sig.constants := by
  constructor
  · intro known
    have labels : ∀ label ∈ term.labelOccurrences, sig.isFunction label = false := by
      simpa using (Bool.and_eq_true_iff.mp known).2
    have ground := Term.Within.ground_iff.mpr (ground_of_isValue known)
    refine (ground.and (within_of_labels labels)).mono fun node ⟨closed, allowed⟩ => ?_
    cases node with
    | var v => exact closed
    | app label sort args => exact allowed
    | _ => trivial
  · intro within
    have labels := labels_of_within (fun _ _ => id) within
    refine Bool.and_eq_true_iff.mpr ⟨Term.Within.ground_iff.mp (within.mono fun node allowed => ?_), ?_⟩
    · cases node with
      | var v => exact allowed
      | _ => trivial
    · simpa using labels

/-- A value in which a variable is replaced by something else than a value does not have the variable. -/
theorem apply_single_of_isValue (canonical : term.Canonical) (unknown : sig.isValue value ≠ true)
    (known : sig.isValue ((Subst.single v value).apply term) = true) :
    (Subst.single v value).apply term = term := by
  refine Subst.apply_single_eq_self canonical fun occurs => ?_
  have image := Term.Everywhere.image_of_apply (fun _ _ _ => trivial) canonical (isValue_iff.mp known) occurs
  rw [Subst.image_single, if_pos rfl] at image
  exact unknown (isValue_iff.mpr image)

end Signature

/-- Only an instance of a variable is a variable. -/
theorem Subst.exists_var_of_apply {s : Subst} {term : Term} {v : Variable} (canonical : term.Canonical)
    (same : s.apply term = .var v) : ∃ w, term = .var w := by
  cases term with
  | var w => exact ⟨w, rfl⟩
  | app label sort args =>
    rw [apply_app_eq] at same
    cases same
  | token sort value =>
    rw [apply_token_eq] at same
    cases same
  | collection kind entries frame =>
    have kept := @kind?_apply s _ _ _ canonical
    rw [same] at kept
    cases kept

namespace Atom

variable {sig : Signature} {atom : Atom} {term value : Term} {v w : Variable}

section Binding

variable (canonical : ∀ part ∈ atom.parts, part.Canonical) (unknown : sig.isValue term ≠ true)
  (known : sig.isValue value = true)
include canonical unknown known

/-- If an atom says the value of a variable after something else than a value was put in, it said the same
value before. -/
theorem of_map_single_eq_binding (same : atom.map (Subst.single v term).apply = .eq (.var w) value) :
    ∃ u, atom = .eq (.var u) value ∧ (Subst.single v term).image u = .var w := by
  cases atom with
  | holds condition => cases same
  | eq a b =>
    obtain ⟨left, right⟩ := List.forall_mem_cons.mp canonical
    obtain ⟨here, there⟩ := Atom.eq.inj same
    obtain ⟨u, rfl⟩ := Subst.exists_var_of_apply left here
    subst there
    rw [Signature.apply_single_of_isValue (List.forall_mem_singleton.mp right) unknown known]
    exact ⟨u, rfl, (Subst.apply_var_eq _ u).symm.trans here⟩

private theorem of_map_single_eq_turned (same : atom.map (Subst.single v term).apply = .eq value (.var w)) :
    ∃ u, atom = .eq value (.var u) := by
  cases atom with
  | holds condition => cases same
  | eq a b =>
    obtain ⟨left, right⟩ := List.forall_mem_cons.mp canonical
    obtain ⟨here, there⟩ := Atom.eq.inj same
    obtain ⟨u, rfl⟩ := Subst.exists_var_of_apply (List.forall_mem_singleton.mp right) there
    subst here
    rw [Signature.apply_single_of_isValue left unknown known]
    exact ⟨u, rfl⟩

end Binding

end Atom

namespace Constraint

variable {sig : Signature} {c : Constraint} {atom definition : Atom} {atoms others : List Atom}
  {keep : List Variable} {term : Term} {v : Variable}

/-- The definition that is taken out comes back with the others. -/
theorem perm_of_takeEliminable (taken : takeEliminable keep atoms = some ((v, term), others)) :
    ∃ definition, eliminable keep definition = some (v, term) ∧ atoms.Perm (definition :: others) ∧
      others.Sublist atoms := by
  induction atoms generalizing others with
  | nil => cases taken
  | cons first rest ih =>
    rw [takeEliminable] at taken
    split at taken
    · next found =>
      cases taken
      exact ⟨first, found, .refl _, List.sublist_cons_self first rest⟩
    · obtain ⟨⟨_, left⟩, deeper, same⟩ := Option.map_eq_some_iff.mp taken
      cases same
      obtain ⟨definition, found, perm, sublist⟩ := ih deeper
      exact ⟨definition, found, (perm.cons first).trans (.swap definition first left), sublist.cons_cons first⟩

section Independence

/-- Neither atom says the value of a variable of the other. -/
def Apart (sig : Signature) (first second : Atom) : Prop :=
  ∀ v value, sig.isValue value = true → (first = .eq (.var v) value → v ∉ second.vars) ∧
    (second = .eq (.var v) value → v ∉ first.vars)

instance : Std.Symm (Apart sig) where
  symm _ _ apart := fun v value known => (apart v value known).symm

/-- Canonical atoms, of which those that say the value of a variable have the variable on the left and for
themselves. -/
structure Independent (sig : Signature) (atoms : List Atom) : Prop where
  canonical : ∀ atom ∈ atoms, ∀ part ∈ atom.parts, part.Canonical
  oriented : ∀ v value, sig.isValue value = true → .eq value (.var v) ∉ atoms
  apart : atoms.Pairwise (Apart sig)

theorem Normal.independent (normal : c.Normal sig) : Independent sig c.atoms := by
  refine ⟨fun atom member => (normal.simple atom member).canonical, fun v value known member => ?_, ?_⟩
  · cases normal.simple _ member with
    | eq _ _ _ _ _ ordered =>
      cases value with
      | var w => cases Signature.ground_of_isValue known
      | _ => cases ordered
  · refine normal.distinct.imp_of_mem fun {first second} before after differ v value known => ⟨?_, ?_⟩
    · rintro rfl occurs
      exact differ (normal.solved v value before known second after occurs).symm
    · rintro rfl occurs
      exact differ (normal.solved v value after known first before occurs)

theorem Independent.perm (independent : Independent sig atoms) (perm : atoms.Perm others) :
    Independent sig others where
  canonical atom member := independent.canonical atom (perm.mem_iff.mpr member)
  oriented v value known member := independent.oriented v value known (perm.mem_iff.mpr member)
  apart := perm.pairwise independent.apart (Std.Symm.symm _ _)

theorem Independent.tail (independent : Independent sig (definition :: others)) : Independent sig others where
  canonical atom member := independent.canonical atom (List.mem_cons_of_mem _ member)
  oriented v value known member := independent.oriented v value known (List.mem_cons_of_mem _ member)
  apart := (List.pairwise_cons.mp independent.apart).2

/-- Replacing a variable that no atom mentions leaves the atoms as they are. -/
theorem map_single_eq_self (canonical : ∀ atom ∈ atoms, ∀ part ∈ atom.parts, part.Canonical)
    (absent : ∀ atom ∈ atoms, v ∉ atom.vars) : atoms.map (Atom.map (Subst.single v term).apply) = atoms := by
  refine (List.map_congr_left fun atom member => ?_).trans (List.map_id atoms)
  exact Atom.map_single_eq_self (canonical atom member) (absent atom member)

section Replacement

variable (independent : Independent sig (definition :: others))
  (shape : definition = .eq (.var v) term ∨ definition = .eq term (.var v))
include independent shape

/-- A variable that has a value is in its definition only. -/
theorem Independent.replace_value (known : sig.isValue term = true) :
    others.map (Atom.map (Subst.single v term).apply) = others := by
  have defines : definition = .eq (.var v) term :=
    shape.resolve_right fun turned => independent.oriented v term known (turned ▸ List.mem_cons_self)
  have alone := (List.pairwise_cons.mp independent.apart).1
  exact map_single_eq_self independent.tail.canonical fun atom member =>
    (alone atom member v term known).1 defines

/-- Where something else than a value is put in, the atoms that say the value of a variable are those that
did before, and the variable does not come into another atom. -/
theorem Independent.replace_open (unknown : sig.isValue term ≠ true) :
    Independent sig (others.map (Atom.map (Subst.single v term).apply)) := by
  have inner := independent.tail
  have alone := (List.pairwise_cons.mp independent.apart).1
  have mentions : v ∈ definition.vars ∧ ∀ w ∈ term.vars, w ∈ definition.vars := by
    rcases shape with rfl | rfl <;> simp +contextual [Atom.vars]
  have canonical : (Subst.single v term).Canonical := by
    have parts := independent.canonical definition List.mem_cons_self
    rcases shape with rfl | rfl <;> exact Subst.Canonical.single (parts term (by simp [Atom.parts]))
  have before (atom : Atom) (member : atom ∈ others) (w : Variable) (value : Term)
      (known : sig.isValue value = true)
      (same : atom.map (Subst.single v term).apply = .eq (.var w) value) :
      atom = .eq (.var w) value ∧ w ∉ term.vars := by
    obtain ⟨u, rfl, image⟩ := Atom.of_map_single_eq_binding (inner.canonical atom member) unknown known same
    -- The variable is not in the definition, so that it was not put in.
    have free := (alone _ member u value known).2 rfl
    rw [Subst.image_single, if_neg fun same : u = v => free (same ▸ mentions.1)] at image
    cases image
    exact ⟨rfl, fun occurs => free (mentions.2 w occurs)⟩
  have absent {first second : Atom} (present : first ∈ others) {w : Variable} {value : Term}
      (known : sig.isValue value = true) (apart : first = .eq (.var w) value → w ∉ second.vars)
      (same : first.map (Subst.single v term).apply = .eq (.var w) value) :
      w ∉ (second.map (Subst.single v term).apply).vars := by
    obtain ⟨defines, outside⟩ := before first present w value known same
    intro occurs
    rcases Atom.mem_vars_map_single.mp occurs with ⟨inside, _⟩ | ⟨_, inside⟩
    · exact apart defines inside
    · exact outside inside
  refine ⟨fun image member part inside => ?_, fun w value known member => ?_,
    List.pairwise_map.mpr (inner.apart.imp_of_mem fun present present' apart w value known => ?_)⟩
  · obtain ⟨atom, present, rfl⟩ := List.mem_map.mp member
    rw [Atom.parts_map] at inside
    obtain ⟨source, within, rfl⟩ := List.mem_map.mp inside
    exact canonical.apply (inner.canonical atom present source within)
  · obtain ⟨atom, present, same⟩ := List.mem_map.mp member
    obtain ⟨u, rfl⟩ := Atom.of_map_single_eq_turned (inner.canonical atom present) unknown known same
    exact inner.oriented u value known present
  · exact ⟨absent present known (apart w value known).1, absent present' known (apart w value known).2⟩

end Replacement

theorem Independent.eliminate (independent : Independent sig atoms) (keep : List Variable) (rounds : Nat) :
    Independent sig (Constraint.eliminate keep rounds atoms) := by
  induction rounds generalizing atoms with
  | zero => exact independent
  | succ rounds ih =>
    rw [Constraint.eliminate]
    split
    · exact independent
    · next v term others taken =>
      obtain ⟨definition, found, perm, _⟩ := perm_of_takeEliminable taken
      have ordered := independent.perm perm
      have shape := (of_eliminable found).1
      refine ih ?_
      by_cases known : sig.isValue term = true
      · rw [ordered.replace_value shape known]
        exact ordered.tail
      · exact ordered.replace_open shape known

end Independence

section Projection

private theorem nodup_pushAll (distinct : c.atoms.Nodup) : (atoms.foldl push c).atoms.Nodup := by
  induction atoms generalizing c with
  | nil => exact distinct
  | cons first rest ih => exact ih (nodup_push distinct)

/-- A projection of a normal form is one if each of its atoms is simple: none is there twice, and there is no
value to propagate. -/
theorem Normal.project_iff (normal : c.Normal sig) (keep : List Variable) :
    (c.project keep).Normal sig ↔ ∀ atom ∈ (c.project keep).atoms, atom.Simple sig := by
  refine ⟨fun projected => projected.simple, fun simple => ?_⟩
  have independent := normal.independent.eliminate keep c.atoms.length
  have distinct : (c.project keep).atoms.Nodup := by
    unfold project
    split
    · exact List.nodup_nil
    · exact nodup_pushAll List.nodup_nil
  refine ⟨⟨fun contradictory => ?_, distinct, simple⟩, fun v value defined known atom member occurs => ?_⟩
  · rw [project_contradiction] at contradictory
    rw [project, if_pos contradictory]
    rfl
  · by_contra other
    have apart := independent.apart.forall (of_mem_project defined).1 (of_mem_project member).1 (Ne.symm other)
    exact (apart v value known).1 rfl occurs

/-- No variable that can be eliminated is in two atoms. -/
def Uncoupled (keep : List Variable) (atoms : List Atom) : Prop :=
  ∀ atom ∈ atoms, ∀ definition ∈ eliminable keep atom, ∀ other ∈ atoms, definition.1 ∈ other.vars →
    other = atom

/-- Where no variable is in two atoms, elimination takes atoms out and leaves the others alone. -/
theorem sublist_eliminate (distinct : atoms.Nodup)
    (canonical : ∀ atom ∈ atoms, ∀ part ∈ atom.parts, part.Canonical) (uncoupled : Uncoupled keep atoms)
    (rounds : Nat) : (eliminate keep rounds atoms).Sublist atoms := by
  induction rounds generalizing atoms with
  | zero => exact .refl atoms
  | succ rounds ih =>
    rw [eliminate]
    split
    · exact .refl atoms
    · next v term others taken =>
      obtain ⟨definition, found, perm, sublist⟩ := perm_of_takeEliminable taken
      have given : definition ∈ atoms := perm.mem_iff.mpr List.mem_cons_self
      have taken : definition ∉ others := (List.nodup_cons.mp (perm.nodup_iff.mp distinct)).1
      have inner := fun atom member => canonical atom (sublist.subset member)
      have absent (atom : Atom) (member : atom ∈ others) : v ∉ atom.vars := fun occurs =>
        taken (uncoupled definition given (v, term) found atom (sublist.subset member) occurs ▸ member)
      rw [map_single_eq_self inner absent]
      refine (ih (distinct.sublist sublist) inner fun atom member definition found other present => ?_).trans
        sublist
      exact uncoupled atom (sublist.subset member) definition found other (sublist.subset present)

theorem Normal.project (normal : c.Normal sig) (uncoupled : Uncoupled keep c.atoms) :
    (c.project keep).Normal sig := by
  refine (normal.project_iff keep).mpr fun atom member => normal.simple atom ?_
  have canonical := fun atom member => (normal.simple atom member).canonical
  exact (sublist_eliminate normal.distinct canonical uncoupled _).subset (of_mem_project member).1

private theorem simplify_singleton_iff :
    simplify sig ⟨[atom], false⟩ = ⟨[atom], false⟩ ↔ atom.Simple sig := by
  refine normal_iff.symm.trans
    ⟨fun normal => normal.simple atom (List.mem_singleton_self atom), fun simple => ?_⟩
  refine ⟨⟨nofun, List.nodup_singleton atom, List.forall_mem_singleton.mpr simple⟩, ?_⟩
  intro v value defined known other member occurs
  rw [List.mem_singleton.mp member, List.mem_singleton.mp defined]

theorem Normal.simplify_project_iff (normal : c.Normal sig) (keep : List Variable) :
    (c.project keep).simplify sig = c.project keep ↔
      ∀ atom ∈ (c.project keep).atoms, simplify sig ⟨[atom], false⟩ = ⟨[atom], false⟩ := by
  rw [← normal_iff, normal.project_iff]
  exact forall₂_congr fun _ _ => simplify_singleton_iff.symm

end Projection

end Constraint

namespace Engine

variable {context : Context} {world after : World} {rule : Rule} {state : State} {fit : Fit} {s : Subst}
  {mode : Mode} {limit : Option Nat} {result : List Successor} {next : Successor}

/-- What is known of a successor when the variables that left its term are not eliminated yet. -/
def Known (context : Context) (rule : Rule) (state : State) (next : Successor) (known : Constraint) : Prop :=
  ∃ (fit : Fit) (s bound : Subst) (requires ensures : Term), next.narrowing = fit.narrowing ∧
    context.definition.evaluate context.config.maxFunctionDepth (s.apply rule.requires) = .ok requires ∧
    context.definition.evaluate context.config.maxFunctionDepth (bound.apply rule.rhs) =
      .ok next.state.term ∧
    context.definition.evaluate context.config.maxFunctionDepth (bound.apply rule.ensures) = .ok ensures ∧
    known = assumed context.definition.signature state fit s requires ensures

theorem known_of_successor? (gives : Gives (successor? rule state fit s) context world (some next) after) :
    ∃ known, Known context rule state next known ∧
      next.state.constraint = known.project next.state.term.freeVars := by
  obtain ⟨requires, answer, _, required, _, rest⟩ := Discipline.of_gives_successor? gives
  cases answer with
  | false => cases rest.1
  | true =>
    obtain ⟨bound, term, ensures, _, target, promised, made⟩ := rest
    unfold produced at made
    dsimp only at made
    split at made
    · cases made
    · cases made
      exact ⟨_, ⟨fit, s, bound, requires, ensures, rfl, required, target, promised, rfl⟩, rfl⟩

/-- The constraint of a successor is simplified exactly if each of its atoms is. It is one where no variable
that projection eliminates was in two atoms. -/
theorem simplified_of_applyRule (gives : Gives (applyRule rule state mode limit) context world result after) :
    ∀ next ∈ result,
      (next.state.constraint.simplify context.definition.signature = next.state.constraint ↔
        ∀ atom ∈ next.state.constraint.atoms,
          Constraint.simplify context.definition.signature ⟨[atom], false⟩ = ⟨[atom], false⟩) ∧
      ∃ applied ∈ [rule, (rule.renameApart world.fresh).1], ∃ known, Known context applied state next known ∧
        next.state.constraint = known.project next.state.term.freeVars ∧
        (Constraint.Uncoupled next.state.term.freeVars known.atoms →
          next.state.constraint.simplify context.definition.signature = next.state.constraint) := by
  intro next member
  have origin : ∃ applied ∈ [rule, (rule.renameApart world.fresh).1], ∃ known,
      Known context applied state next known ∧
        next.state.constraint = known.project next.state.term.freeVars := by
    rcases origin_of_applyRule gives next member with ⟨_, _, _, _, _, _, _, _, _, made⟩ |
      ⟨_, _, _, _, _, _, _, _, _, _, _, made⟩
    · exact ⟨rule, List.mem_cons_self, known_of_successor? made⟩
    · exact ⟨_, List.mem_cons_of_mem _ (List.mem_singleton_self _), known_of_successor? made⟩
  obtain ⟨applied, among, known, comes, projected⟩ := origin
  have normal : known.Normal context.definition.signature := by
    obtain ⟨_, _, _, _, _, _, _, _, _, rfl⟩ := comes
    exact Constraint.normal_simplify _ _
  refine ⟨?_, applied, among, known, comes, projected, fun uncoupled => ?_⟩
  · rw [projected]
    exact normal.simplify_project_iff _
  · rw [projected]
    exact Constraint.simplify_of_normal (normal.project uncoupled)

/-- What no successor covers has a constraint of the same kind. -/
theorem simplify_remainder_iff {successors : List Successor} {rest : State}
    (gives : Gives (remainder state successors) context world (some rest) after) :
    rest.constraint.simplify context.definition.signature = rest.constraint ↔
      ∀ atom ∈ rest.constraint.atoms,
        Constraint.simplify context.definition.signature ⟨[atom], false⟩ = ⟨[atom], false⟩ := by
  obtain ⟨c, rfl⟩ := of_gives_remainder gives
  exact (Constraint.normal_simplify _ c).simplify_project_iff _

end Engine

/-- Of two numbers, forgets the second. -/
def forgetting : Rule where
  label := "forget"
  lhs := .app "pair" (.named "S") [.var ⟨"X", .int⟩, .var ⟨"Y", .int⟩]
  rhs := .app "one" (.named "S") [.var ⟨"X", .int⟩]

/-- Changes nothing. -/
def keeping : Rule where
  label := "keep"
  lhs := .app "one" (.named "S") [.var ⟨"X", .int⟩]
  rhs := .app "one" (.named "S") [.var ⟨"X", .int⟩]

def forgetful : Context where
  definition :=
    { signature := ⟨(Signature.builtin.labels.insert "pair"
        (.constructor "pair" [.int, .int] (.named "S"))).insert "one" (.constructor "one" [.int] (.named "S"))⟩
      rules := [forgetting, keeping]
      index := (Assoc.empty.insert "pair" [0]).insert "one" [1]
      unindexed := []
      functions := .empty }

/-- Two numbers with this constraint on them. -/
def pairWith (atoms : List Atom) : State where
  term := .app "pair" (.named "S") [.var ⟨"K", .int⟩, .var ⟨"W", .int⟩]
  constraint := { atoms, contradiction := false }

/-- The second number is one more than the first, and what is known of the first alone stays. -/
theorem simplified_of_applyRule_successor :
    let sum := Term.app Label.intAdd .int [.var ⟨"K", .int⟩, .ofInt 1]
    let less := Term.app Label.intLt .bool [.var ⟨"K", .int⟩, .ofInt 5]
    ∃ next after, Engine.Gives (Engine.applyRule forgetting (pairWith [.eq (.var ⟨"W", .int⟩) sum, .holds less])
        .matching none) forgetful {} [next] after ∧
      next.state.constraint.atoms = [.holds less] ∧
      next.state.constraint.simplify forgetful.definition.signature = next.state.constraint := by
  intro sum less
  let next : Successor :=
    { state := { term := .app "one" (.named "S") [.var ⟨"K", .int⟩], constraint := ⟨[.holds less], false⟩ }
      rule := "forget"
      transition := false
      narrowing := .empty
      condition := .top }
  obtain ⟨after, gives⟩ := Engine.exists_gives
    (show ((Engine.applyRule forgetting (pairWith [.eq (.var ⟨"W", .int⟩) sum, .holds less]) .matching
      none : Engine _).run forgetful {}).1 = .ok [next] by decide +kernel)
  obtain ⟨simplified, _⟩ := Engine.simplified_of_applyRule gives next (List.mem_singleton_self next)
  refine ⟨next, after, gives, rfl, simplified.mpr (List.forall_mem_singleton.mpr ?_)⟩
  decide +kernel

/-- Two equations between the numbers leave one of a number with itself. Of the state that is reached and
of its own successor the terms and the simplified constraints are the same, but the states are not. -/
theorem simplified_of_applyRule_trivial :
    let sig := forgetful.definition.signature
    let state := pairWith [.eq (.var ⟨"W", .int⟩) (.var ⟨"K", .int⟩), .eq (.var ⟨"K", .int⟩) (.var ⟨"W", .int⟩)]
    Definition.ofRules sig [forgetting, keeping] = .ok forgetful.definition ∧
      state.constraint.simplify sig = state.constraint ∧
      ∃ next after, Engine.Gives (Engine.applyRule forgetting state .matching none) forgetful {} [next] after ∧
        next.state.constraint.simplify sig ≠ next.state.constraint ∧
        ∃ again later, Engine.Gives (Engine.applyRule keeping next.state .matching none) forgetful {} [again]
            later ∧
          again.state.term = next.state.term ∧
          again.state.constraint.simplify sig = next.state.constraint.simplify sig ∧
          again.state ≠ next.state := by
  intro sig state
  let next : Successor :=
    { state := { term := .app "one" (.named "S") [.var ⟨"K", .int⟩]
                 constraint := ⟨[.eq (.var ⟨"K", .int⟩) (.var ⟨"K", .int⟩)], false⟩ }
      rule := "forget"
      transition := false
      narrowing := .empty
      condition := .top }
  obtain ⟨after, gives⟩ := Engine.exists_gives
    (show ((Engine.applyRule forgetting state .matching none : Engine _).run forgetful {}).1 = .ok [next] by
      decide +kernel)
  let again : Successor :=
    { next with state := { next.state with constraint := .top }, rule := "keep" }
  obtain ⟨later, repeated⟩ := Engine.exists_gives
    (show ((Engine.applyRule keeping next.state .matching none : Engine _).run forgetful {}).1 = .ok [again] by
      decide +kernel)
  exact ⟨rfl, by decide +kernel, next, after, gives, by decide +kernel, again, later, repeated, rfl,
    by decide +kernel, by decide +kernel⟩

end Reach
