import Reach.Proofs.Builtins
import Reach.Proofs.Depth
import Reach.Proofs.Patterns
import Reach.Proofs.Stability

/-!
Evaluation keeps terms well-sorted: a term has a value of a sort that its own sort accepts. Builtins
on maps are left out, since what they find in a map may have any sort.
-/

namespace Reach

namespace Hook

variable {args : List Term} {a b result : Term} {hook : Hook}

/-- The sort of what a hook computes. -/
def sort : Hook → TermSort
  | intAdd | intSub | intMul | intDiv | intMod | intMin | intMax | intAbs => .int
  | stringLength | mapSize | setSize | listSize => .int
  | intCompare _ | boolNot | boolAnd | boolOr | boolImplies | boolXor | boolEq => .bool
  | stringEq | termEq | termNe | mapInKeys | setIn => .bool
  | stringConcat | sha256 => .string
  | mapUpdate | mapRemove => .map
  | mapLookup => .top

/-- The hooks that may give one of their arguments. -/
def isConnective : Hook → Bool
  | boolAnd | boolOr | boolImplies => true
  | _ => false

theorem sort_of_isConnective (connective : hook.isConnective = true) : hook.sort = .bool := by
  cases hook <;> first | rfl | cases connective

theorem token_of_onBoth {α : Type} {read : Term → Option α} {op : α → α → Option Term} {sort : TermSort}
    (tokens : ∀ x y term, op x y = some term → ∃ value, term = .token sort value)
    (made : onBoth read op a b = some result) : ∃ value, result = .token sort value := by
  obtain ⟨x, y, _, _, made⟩ := onBoth_eq_some made
  exact tokens x y result made

/-- Away from maps a hook gives a token of its sort, or, if it is a connective, an argument. -/
theorem token_or_arg (unmapped : hook.isMap = false) (made : hook.apply args = some result) :
    (∃ value, result = .token hook.sort value) ∨ hook.isConnective = true ∧ result ∈ args := by
  have token (sort : TermSort) (value : String) : ∃ text, Term.token sort value = .token sort text :=
    ⟨value, rfl⟩
  unfold apply at made
  split at made
  · exact .inl (token_of_onBoth (fun x y term same => by cases same; exact token _ _) made)
  · exact .inl (token_of_onBoth (fun x y term same => by cases same; exact token _ _) made)
  · exact .inl (token_of_onBoth (fun x y term same => by cases same; exact token _ _) made)
  · refine .inl (token_of_onBoth (fun x y term same => ?_) made)
    split at same <;> cases same
    exact token _ _
  · refine .inl (token_of_onBoth (fun x y term same => ?_) made)
    split at same <;> cases same
    exact token _ _
  · exact .inl (token_of_onBoth (fun x y term same => by cases same; exact token _ _) made)
  · exact .inl (token_of_onBoth (fun x y term same => by cases same; exact token _ _) made)
  · obtain ⟨x, _, rfl⟩ := Option.map_eq_some_iff.mp made
    exact .inl (token _ _)
  · exact .inl (token_of_onBoth (fun x y term same => by cases same; exact token _ _) made)
  · obtain ⟨x, _, rfl⟩ := Option.map_eq_some_iff.mp made
    exact .inl (token _ _)
  · rcases conjunction_eq_some made with ⟨_, rfl⟩ | ⟨_, rfl⟩ | ⟨_, rfl⟩
    · exact .inl (token _ _)
    · exact .inr ⟨rfl, by simp⟩
    · exact .inr ⟨rfl, by simp⟩
  · rcases disjunction_eq_some made with ⟨_, rfl⟩ | ⟨_, rfl⟩ | ⟨_, rfl⟩
    · exact .inl (token _ _)
    · exact .inr ⟨rfl, by simp⟩
    · exact .inr ⟨rfl, by simp⟩
  · rcases implication_eq_some made with ⟨_, rfl⟩ | ⟨_, rfl⟩
    · exact .inl (token _ _)
    · exact .inr ⟨rfl, by simp⟩
  · exact .inl (token_of_onBoth (fun x y term same => by cases same; exact token _ _) made)
  · exact .inl (token_of_onBoth (fun x y term same => by cases same; exact token _ _) made)
  · exact .inl (token_of_onBoth (fun x y term same => by cases same; exact token _ _) made)
  · obtain ⟨x, _, rfl⟩ := Option.map_eq_some_iff.mp made
    exact .inl (token _ _)
  · exact .inl (token_of_onBoth (fun x y term same => by cases same; exact token _ _) made)
  · obtain ⟨_, _, rfl⟩ := onGround_eq_some made
    exact .inl (token _ _)
  · obtain ⟨_, _, rfl⟩ := onGround_eq_some made
    exact .inl (token _ _)
  · cases unmapped
  · cases unmapped
  · cases unmapped
  · cases unmapped
  · cases unmapped
  · obtain ⟨_, _, _, ⟨_, rfl⟩ | ⟨_, _, rfl⟩⟩ := member_eq_some made
    · exact .inl (token _ _)
    · exact .inl (token _ _)
  · obtain ⟨entries, _, _, rfl⟩ := count_eq_some made
    exact .inl (token _ _)
  · obtain ⟨entries, _, _, rfl⟩ := count_eq_some made
    exact .inl (token _ _)
  · obtain ⟨x, _, rfl⟩ := Option.map_eq_some_iff.mp made
    exact .inl (token _ _)
  · cases made

end Hook

namespace Signature

variable {sig next : Signature} {decl : Declaration} {decls : List Declaration} {term : Term}
  {s : Subst}

/-- A declaration that is hooked has the sort of what its hook computes. -/
def HookSorted (decl : Declaration) : Prop :=
  ∀ name ∈ decl.hook, ∀ hook ∈ Hook.ofName? name, decl.sort.accepts hook.sort = true ∧
    (hook.isConnective = true → ∀ sort ∈ decl.args, sort = .bool)

instance (decl : Declaration) : Decidable (HookSorted decl) :=
  inferInstanceAs (Decidable (∀ name ∈ decl.hook, ∀ hook ∈ Hook.ofName? name,
    decl.sort.accepts hook.sort = true ∧
      (hook.isConnective = true → ∀ sort ∈ decl.args, sort = .bool)))

/-- Every hooked label has the sort of what its hook computes. -/
def HooksSorted (sig : Signature) : Prop :=
  ∀ label decl, sig.labels.get? label = some decl → HookSorted decl

private theorem hookSorted_builtin : ∀ entry ∈ builtin.labels.entries, HookSorted entry.2 := by
  decide

theorem hooksSorted_builtin : builtin.HooksSorted := fun label decl found =>
  hookSorted_builtin (label, decl) (Assoc.get?_eq_some_iff.mp found)

theorem HooksSorted.declareAll (sorted : sig.HooksSorted) (unhooked : ∀ decl ∈ decls, decl.hook = none)
    (declared : sig.declareAll decls = .ok next) : next.HooksSorted := by
  refine holds_of_declareAll HooksSorted sorted (fun sig next decl member before step => ?_) declared
  intro label other found
  rw [(get?_of_declare step label).2] at found
  split at found
  · cases found
    intro name hooked
    rw [unhooked decl member] at hooked
    cases hooked
  · exact before label other found

/-- An application fits its declaration and is no builtin on maps; a collection is shaped as its kind
asks for, but its keys may repeat. -/
def Orderly (sig : Signature) : Term → Prop
  | .app label sort args => sig.Fits (.app label sort args) ∧ sig.unmapped.label label sort
  | term => term.Shaped

theorem orderly_of_check (checked : sig.check term = .ok ()) (unmapped : term.Within sig.unmapped) :
    term.Everywhere sig.Orderly := by
  refine (((check_eq_ok_iff sig term).mp checked).and unmapped).mono fun node ⟨fits, allowed⟩ => ?_
  cases node with
  | app label sort args => exact ⟨fits, allowed⟩
  | collection kind entries frame => exact ⟨fits.1, fits.2.1⟩
  | _ => trivial

private theorem shaped_of_orderly (orderly : term.Everywhere sig.Orderly) : term.Everywhere Term.Shaped := by
  refine orderly.mono fun node orderly => ?_
  cases node with
  | app label sort args => trivial
  | _ => exact orderly

/-- Arguments may be replaced by others of sorts that theirs accept. -/
theorem Orderly.map {label : String} {sort : TermSort} {args : List Term} {f : Term → Term}
    (orderly : sig.Orderly (.app label sort args))
    (sorts : ∀ arg ∈ args, arg.sort.accepts (f arg).sort = true) :
    sig.Orderly (.app label sort (args.map f)) := by
  obtain ⟨⟨decl, declared, same, size, accepted⟩, unmapped⟩ := orderly
  refine ⟨⟨decl, declared, same, by simpa using size, fun pair member => ?_⟩, unmapped⟩
  rw [List.zip_map_right] at member
  obtain ⟨⟨expected, arg⟩, present, rfl⟩ := List.mem_map.mp member
  exact TermSort.accepts_trans (accepted (expected, arg) present)
    (sorts arg (List.of_mem_zip present).2)

/-- The term is orderly everywhere, and the sort accepts its sort. -/
def Has (sig : Signature) (sort : TermSort) (term : Term) : Prop :=
  term.Everywhere sig.Orderly ∧ sort.accepts term.sort = true

theorem has_var (sig : Signature) (v : Variable) : sig.Has v.sort (.var v) :=
  ⟨Term.Everywhere.var_iff.mpr trivial, TermSort.accepts_self v.sort⟩

/-- A fold keeps terms orderly and their sorts, if it does so at variables and applications. -/
theorem has_fold {algebra : Term.Algebra Term} (normalizing : algebra.Normalizing)
    (token : algebra.token = .token) (var : ∀ v ∈ term.vars, sig.Has v.sort (algebra.var v))
    (app : ∀ label sort args, sig.Orderly (.app label sort args) →
      (∀ arg ∈ args, arg.Canonical ∧ arg.Everywhere sig.Orderly) →
        sig.Has sort (algebra.app label sort args))
    (whole : term.Everywhere sig.Orderly) : sig.Has term.sort (term.fold algebra) := by
  induction term using Term.induct with
  | var v => exact var v (by simp)
  | token sort value =>
    rw [Term.fold_token, token]
    exact ⟨whole, TermSort.accepts_self sort⟩
  | app label sort args ih =>
    obtain ⟨here, inner⟩ := Term.Everywhere.app_iff.mp whole
    have each (arg : Term) (member : arg ∈ args) := ih arg member (fun v occurs =>
      var v (Term.mem_vars_app.mpr ⟨arg, member, occurs⟩)) (inner arg member)
    rw [Term.fold_app]
    refine app label sort _ (here.map fun arg member => (each arg member).2) fun image member => ?_
    obtain ⟨arg, inside, rfl⟩ := List.mem_map.mp member
    exact ⟨normalizing.canonical arg, (each arg inside).1⟩
  | collection kind entries frame ihEntries ihFrame =>
    obtain ⟨⟨shapes, sorts⟩, inner, last⟩ := Term.Everywhere.collection_iff.mp whole
    have parts : ∀ entry ∈ entries.map (Entry.map (Term.fold algebra)), ∀ part ∈ entry.parts,
        part.Everywhere sig.Orderly := by
      intro entry member part inside
      obtain ⟨source, present, piece, within, rfl⟩ := Entry.mem_parts_map member inside
      refine (ihEntries source present piece within (fun v occurs => var v ?_)
        (inner source present piece within)).1
      exact Term.mem_vars_collection.mpr (.inl ⟨source, present, piece, within, occurs⟩)
    have frames : ∀ image ∈ frame.map (Term.fold algebra),
        image.Everywhere sig.Orderly ∧ image.sort = kind.sort := by
      intro image member
      obtain ⟨source, present, rfl⟩ := Option.map_eq_some_iff.mp member
      obtain ⟨orderly, accepted⟩ := ihFrame source present (fun v occurs =>
        var v (Term.mem_vars_collection.mpr (.inr ⟨source, present, occurs⟩))) (last source present)
      exact ⟨orderly, Term.sort_eq_of_accepts (sorts source present ▸ accepted)⟩
    have shapesImage : ∀ entry ∈ entries.map (Entry.map (Term.fold algebra)),
        kind.checkShape entry = .ok () := by
      intro entry member
      obtain ⟨source, present, rfl⟩ := List.mem_map.mp member
      rw [Term.checkShape_map]
      exact shapes source present
    obtain ⟨all, left⟩ := Term.shaped_splice shapesImage (fun image member => (frames image member).2)
      fun image member => shaped_of_orderly (frames image member).1
    rw [normalizing.fold_collection_eq]
    constructor
    · refine .normalized parts (fun image member => (frames image member).1) fun kept inside => ?_
      exact ⟨fun entry member => all entry (inside entry member), left⟩
    · rw [Term.sort_normalized (fun image member => (frames image member).2) fun image member => ?_]
      · exact TermSort.accepts_self kind.sort
      · obtain ⟨source, _, rfl⟩ := Option.map_eq_some_iff.mp member
        exact normalizing.canonical source

theorem has_apply (canonical : s.Canonical) (images : ∀ v ∈ term.vars, sig.Has v.sort (s.image v))
    (written : term.Canonical) (whole : term.Everywhere sig.Orderly) :
    sig.Has term.sort (s.apply term) := by
  rw [Subst.apply_eq_fold_algebra s written]
  refine has_fold canonical.normalizing rfl images (fun label sort args orderly parts => ?_) whole
  exact ⟨Term.Everywhere.app_iff.mpr ⟨orderly, fun arg member => (parts arg member).2⟩,
    TermSort.accepts_self sort⟩

private theorem HooksSorted.has_callHook (sorted : sig.HooksSorted) {label : String} {sort : TermSort}
    {args : List Term} {result : Term} (orderly : sig.Orderly (.app label sort args))
    (parts : ∀ arg ∈ args, arg.Everywhere sig.Orderly)
    (called : sig.callHook label args = some result) : sig.Has sort result := by
  obtain ⟨⟨decl, declared, rfl, size, accepted⟩, unmapped⟩ := orderly
  obtain ⟨name, hooked, called⟩ := Option.bind_eq_some_iff.mp called
  obtain ⟨hook, named, made⟩ := Option.bind_eq_some_iff.mp called
  have holds : decl.hook = some name := by
    rw [hook?, declared] at hooked
    exact hooked
  obtain ⟨fits, bools⟩ := sorted label decl declared name holds hook named
  rcases Hook.token_or_arg (unmapped name hook hooked named) made with ⟨value, rfl⟩ |
    ⟨connective, given⟩
  · exact ⟨Term.Everywhere.token_iff.mpr trivial, fits⟩
  · refine ⟨parts result given, TermSort.accepts_trans fits ?_⟩
    rw [← List.map_snd_zip (Nat.le_of_eq size.symm)] at given
    obtain ⟨⟨expected, _⟩, paired, rfl⟩ := List.mem_map.mp given
    rw [Hook.sort_of_isConnective connective, ← bools connective expected (List.of_mem_zip paired).1]
    exact accepted _ paired

end Signature

/-- What a rule of a function may ask for or give: it mentions no variables besides those of the
left-hand side, and no builtins on maps. -/
structure Rule.Mentions (sig : Signature) (rule : Rule) (term : Term) : Prop where
  canonical : term.Canonical
  unmapped : term.Within sig.unmapped
  vars : ∀ v ∈ term.vars, v ∈ rule.lhs.vars

/-- A rule that has constructors below the head of its left-hand side and looks nothing up. -/
structure Rule.Equational (sig : Signature) (rule : Rule) : Prop where
  patterns : ∀ arg ∈ rule.lhs.children, arg.Within sig.patterns
  lookups : rule.lookups = []
  requires : rule.Mentions sig rule.requires
  rhs : rule.Mentions sig rule.rhs

theorem Rule.check_terms {sig : Signature} {rule : Rule} (checked : rule.check sig = .ok ()) :
    (∀ term ∈ [rule.lhs, rule.rhs, rule.requires, rule.ensures], sig.check term = .ok ()) ∧
      rule.lhs.sort.accepts rule.rhs.sort = true := by
  obtain ⟨terms, checked⟩ := seq_eq_ok_iff.mp checked
  obtain ⟨_, checked⟩ := seq_eq_ok_iff.mp checked
  refine ⟨forM_eq_ok_iff.mp terms, ?_⟩
  by_contra refused
  simp only [Bool.not_eq_true] at refused
  simp only [refused] at checked
  cases checked

namespace Definition

variable {d : Definition} {limit depth : Nat} {term value : Term} {label : String} {rule : Rule}
  {sort : TermSort} {args : List Term}

/-- The functions that have rules are not hooked, their rules are equations, and every hooked label
is a function of the sort of what its hook computes. -/
structure Equational (d : Definition) : Prop where
  heads : ∀ label, ∀ rule ∈ d.functionRules label, rule.lhs.label? = some label
  rules : ∀ label, ∀ rule ∈ d.functionRules label, rule.Equational d.signature
  checked : ∀ label, ∀ rule ∈ d.functionRules label, rule.check d.signature = .ok ()
  unhooked : ∀ label, d.functionRules label ≠ [] → d.signature.hook? label = none
  hooks : d.signature.HooksFunctions
  sorts : d.signature.HooksSorted

theorem equational_of_ofRules {decls : List Declaration} {sig : Signature} {rules : List Rule}
    (declared : Signature.builtin.declareAll decls = .ok sig)
    (plain : ∀ decl ∈ decls, decl.hook = none) (made : ofRules sig rules = .ok d)
    (equational : ∀ label, ∀ rule ∈ d.functionRules label, rule.Equational sig)
    (unhooked : ∀ label, d.functionRules label ≠ [] → sig.hook? label = none) : d.Equational := by
  obtain ⟨parted, checked⟩ := parted_of_ofRules made
  obtain rfl := parted.signature
  exact {
    heads := fun label rule member => (parted.mem_functionRules member).2.1
    rules := equational
    checked := fun label rule member => checked rule (parted.mem_functionRules member).1
    unhooked := unhooked
    hooks := Signature.hooksFunctions_builtin.declareAll (fun decl member _ => plain decl member) declared
    sorts := Signature.hooksSorted_builtin.declareAll plain declared }

theorem normalizing_under (d : Definition) (limit depth : Nat) {values : Variable → Term}
    (canonical : ∀ v, (values v).Canonical) :
    (d.under limit depth values).Normalizing :=
  { d.normalizing_evaluation limit depth with var := canonical }

namespace Equational

variable (equational : d.Equational)
include equational

/-- A function is called with arguments that its rules match in one way at most. -/
theorem carried {holds : Term → Prop} {f : Term → Term} (member : rule ∈ d.functionRules label)
    (given : ∀ arg ∈ args, holds arg)
    (inherited : ∀ label sort args, holds (.app label sort args) → ∀ arg ∈ args, holds arg)
    (keeps : d.signature.Keeps f)
    (sorts : ∀ term, holds term → term.sort.accepts (f term).sort = true) :
    Matching.Problem.Carried holds f (· ∈ rule.lhs.vars)
      (Matching.enumerate rule.lhs (.app label sort args))
      (Matching.enumerate rule.lhs (.app label sort (args.map f))) := by
  have head := equational.heads label rule member
  have patterns := (equational.rules label rule member).patterns
  cases shape : rule.lhs with
  | app other sort' args' =>
    rw [shape] at head patterns
    cases head
    exact Matching.carried_call patterns given inherited keeps sorts
  | _ =>
    rw [shape] at head
    cases head

/-- Under a match of a call, what a rule mentions is as orderly as the call. -/
theorem has_apply (member : rule ∈ d.functionRules label)
    (parts : ∀ arg ∈ args, arg.Canonical ∧ arg.Everywhere d.signature.Orderly) {s : Subst}
    (matched : s ∈ (Matching.enumerate rule.lhs (.app label sort args)).toList)
    (mentions : rule.Mentions d.signature term) (checked : d.signature.check term = .ok ()) :
    d.signature.Has term.sort (s.apply term) := by
  have kept : d.signature.Keeps id := ⟨fun _ _ => rfl, fun _ _ args _ => by rw [List.map_id]; rfl⟩
  have carried : Matching.Problem.Carried
      (fun term => term.Canonical ∧ term.Everywhere d.signature.Orderly) id (· ∈ rule.lhs.vars)
      (Matching.enumerate rule.lhs (.app label sort args))
      (Matching.enumerate rule.lhs (.app label sort (args.map id))) :=
    equational.carried member parts (fun label sort args whole arg inside =>
      ⟨whole.1.of_app arg inside, (Term.Everywhere.app_iff.mp whole.2).2 arg inside⟩) kept
      fun term _ => TermSort.accepts_self term.sort
  rcases carried with none | ⟨found, one, _, bindings, _⟩
  · rw [none] at matched
    cases matched
  · rw [one] at matched
    obtain rfl := List.mem_singleton.mp matched
    have canonical : s.Canonical := fun v term bound => (bindings v term bound).1.1
    have images (v : Variable) : d.signature.Has v.sort (s.image v) := by
      cases bound : s.get? v with
      | none =>
        rw [Subst.image_of_get?_none bound]
        exact d.signature.has_var v
      | some term =>
        rw [show s.image v = term by simp [Subst.image, bound]]
        exact ⟨(bindings v term bound).1.2, (bindings v term bound).2⟩
    exact Signature.has_apply canonical (fun v _ => images v) mentions.canonical
      (Signature.orderly_of_check checked mentions.unmapped)

/-- The rules of a function have its sort. -/
theorem sort_lhs (member : rule ∈ d.functionRules label)
    (orderly : d.signature.Orderly (.app label sort args)) : rule.lhs.sort = sort := by
  have head := equational.heads label rule member
  have checked := (Rule.check_terms (equational.checked label rule member)).1 rule.lhs (by simp)
  have declared := (Signature.within_declared checked).here
  obtain ⟨⟨decl, found, same, _⟩, _⟩ := orderly
  cases shape : rule.lhs with
  | app other sort' args' =>
    rw [shape] at head declared
    cases head
    exact Signature.sort_eq_of_declared declared ⟨decl, found, same⟩
  | _ =>
    rw [shape] at head
    cases head

/-- What an application evaluates to has its sort, if what the rules give has. -/
theorem has_app (orderly : d.signature.Orderly (.app label sort args))
    (parts : ∀ arg ∈ args, arg.Canonical ∧ arg.Everywhere d.signature.Orderly)
    (results : ∀ value, d.call limit depth label (.app label sort args) = .ok value →
      d.signature.Has sort value) :
    d.signature.Has sort ((d.evaluation limit depth).app label sort args) := by
  have whole : d.signature.Has sort (.app label sort args) :=
    ⟨Term.Everywhere.app_iff.mpr ⟨orderly, fun arg member => (parts arg member).2⟩,
      TermSort.accepts_self sort⟩
  cases made : Evaluation.node d.signature (d.call limit depth) label sort args with
  | error failure => simpa [evaluation, Evaluation.algebra, made, Except.toOption] using whole
  | ok value =>
    rw [evaluation, Evaluation.algebra_app made]
    unfold Evaluation.node at made
    split at made
    · next called =>
      cases made
      exact equational.sorts.has_callHook orderly (fun arg member => (parts arg member).2) called
    · dsimp only at made
      split at made
      · exact results value made
      · cases made
        exact whole

/-- The value of an orderly term under orderly values of its variables is orderly, and of a sort that
its own accepts. -/
theorem has_under (limit depth : Nat) {values : Variable → Term}
    (canonical : ∀ v, (values v).Canonical)
    (var : ∀ v ∈ term.vars, d.signature.Has v.sort (values v))
    (whole : term.Everywhere d.signature.Orderly) :
    d.signature.Has term.sort (term.fold (d.under limit depth values)) := by
  induction depth generalizing term values with
  | zero =>
    refine Signature.has_fold (d.normalizing_under limit 0 canonical) rfl var
      (fun label sort args orderly parts => ?_) whole
    refine equational.has_app orderly parts fun value made => ?_
    rw [Definition.call] at made
    split at made
    · cases made
      exact ⟨Term.Everywhere.app_iff.mpr ⟨orderly, fun arg member => (parts arg member).2⟩,
        TermSort.accepts_self sort⟩
    · cases made
  | succ depth ih =>
    refine Signature.has_fold (d.normalizing_under limit (depth + 1) canonical) rfl var
      (fun label sort args orderly parts => ?_) whole
    refine equational.has_app orderly parts fun value made => ?_
    rcases Evaluation.of_tryRules made with rfl | ⟨rule, member, s, matched, _, looked, s', one, evaluated⟩
    · exact ⟨Term.Everywhere.app_iff.mpr ⟨orderly, fun arg member => (parts arg member).2⟩,
        TermSort.accepts_self sort⟩
    · rw [(equational.rules label rule member).lookups] at looked
      cases looked
      obtain rfl := List.mem_singleton.mp one
      obtain ⟨terms, accepted⟩ := Rule.check_terms (equational.checked label rule member)
      have here := equational.has_apply member parts matched
        (equational.rules label rule member).rhs (terms rule.rhs (by simp))
      obtain ⟨_, rfl⟩ := evaluateWithin_eq_ok_iff.mp evaluated
      have after := ih .var (fun v _ => d.signature.has_var v) here.1
      refine ⟨after.1, ?_⟩
      have heads : rule.lhs.sort = sort := equational.sort_lhs member orderly
      rw [← heads]
      exact TermSort.accepts_trans accepted (TermSort.accepts_trans here.2 after.2)

end Equational

end Definition

end Reach
