import Reach.Proofs.Evaluation

/-!
Evaluation commutes with instantiation: evaluating the builtins of a term before its variables are
replaced does not change what the instance evaluates to. The instance may be evaluated by more than
the builtins, as long as it respects them. This fails for the builtins on maps, which may miss a key
that a symbolic key stands for, and for the builtins that compare terms as they are written, if an
application that they look at still has a value of its own. So it is stated for terms without them.
-/

namespace Reach

namespace Hook

/-- The hooks that look into maps. -/
def isMap : Hook → Bool
  | mapLookup | mapUpdate | mapRemove | mapInKeys | mapSize => true
  | _ => false

/-- The hooks that compare or count terms as they are written. -/
def isStructural : Hook → Bool
  | termEq | termNe | setIn | setSize | listSize => true
  | _ => false

end Hook

/-- The terms without applications of these labels. -/
def Term.Fragment.without (loose : String → Prop) : Term.Fragment where
  label label _ := ¬loose label

namespace Signature

/-- No hook determines a result at the outermost application. -/
def Settled (sig : Signature) : Term → Prop
  | .app label _ args => sig.callHook label args = none
  | _ => True

/-- No hook determines a result anywhere. -/
abbrev Evaluated (sig : Signature) : Term → Prop :=
  Term.Everywhere sig.Settled

/-- A hook that may be evaluated before the variables of its arguments are known: it does not look
into maps, and if it compares terms as they are written, there are no loose labels in them. -/
def Safe (loose : String → Prop) (args : List Term) (hook : Hook) : Prop :=
  hook.isMap = false ∧ (hook.isStructural = true → ∀ arg ∈ args, arg.Within (.without loose))

/-- At the outermost symbol, a hook is safe and an integer token is a plain decimal. -/
def Stable (sig : Signature) (loose : String → Prop) : Term → Prop
  | .app label _ args => ∀ name hook, sig.hook? label = some name → Hook.ofName? name = some hook →
    Safe loose args hook
  | .token sort value => sort = .int → ∃ number : Int, value = Numeral.render number
  | _ => True

/-- At the outermost symbol, a hook is safe. -/
def SafelyHooked (sig : Signature) (loose : String → Prop) : Term → Prop
  | .app label _ args => ∀ name hook, sig.hook? label = some name → Hook.ofName? name = some hook →
    Safe loose args hook
  | _ => True

/-- Terms without builtins on maps. -/
def unmapped (sig : Signature) : Term.Fragment where
  label label _ := ∀ name hook, sig.hook? label = some name → Hook.ofName? name = some hook →
    hook.isMap = false

/-- Terms without builtins on maps, whose integer tokens are plain decimals. -/
def plain (sig : Signature) : Term.Fragment where
  label label _ := ∀ name hook, sig.hook? label = some name → Hook.ofName? name = some hook →
    hook.isMap = false
  token sort value := sort = .int → ∃ number : Int, value = Numeral.render number

section Labels

variable {sig : Signature} {label name : String} {hook : Hook} {sort : TermSort} {args : List Term}
  (hooked : sig.hook? label = some name) (named : Hook.ofName? name = some hook)
  (flat : hook.isMap = false)
include hooked named flat

theorem label_unmapped : sig.unmapped.label label sort := by
  intro other hook' found named'
  cases hooked.symm.trans found
  cases named.symm.trans named'
  exact flat

theorem unmapped_app (inner : ∀ arg ∈ args, arg.Within sig.unmapped) :
    (Term.app label sort args).Within sig.unmapped :=
  Term.Everywhere.app_iff.mpr ⟨@label_unmapped _ _ _ _ sort hooked named flat, inner⟩

theorem plain_app (inner : ∀ arg ∈ args, arg.Within sig.plain) :
    (Term.app label sort args).Within sig.plain :=
  Term.Everywhere.app_iff.mpr ⟨@label_unmapped _ _ _ _ sort hooked named flat, inner⟩

end Labels

end Signature

/-- An evaluation that respects the builtins: what a hook determines is the value, tokens stay, and
so do applications that no hook determines, unless their label is loose. A loose label is a function
without a hook. -/
structure Term.Algebra.Respects (sig : Signature) (loose : String → Prop)
    (algebra : Term.Algebra Term) : Prop where
  normalizing : algebra.Normalizing
  token : algebra.token = .token
  hooked : ∀ label sort args result, sig.callHook label args = some result →
    algebra.app label sort args = result
  tight : ∀ label sort args, ¬loose label → sig.callHook label args = none →
    algebra.app label sort args = .app label sort args
  function : ∀ label, loose label → sig.isFunction label = true
  unhooked : ∀ label, loose label → sig.hook? label = none

namespace Term.Algebra.Respects

variable {sig : Signature} {loose : String → Prop} {algebra : Term.Algebra Term}

private theorem app_eq (respects : algebra.Respects sig loose) {label : String} (tight : ¬loose label)
    (sort : TermSort) (args : List Term) :
    algebra.app label sort args = (sig.callHook label args).getD (.app label sort args) := by
  cases called : sig.callHook label args with
  | none => exact respects.tight label sort args tight called
  | some result => exact respects.hooked label sort args result called

/-- An application of a hooked label is what its hook determines. -/
theorem fold_hooked (respects : algebra.Respects sig loose) {label name : String}
    (hooked : sig.hook? label = some name) (sort : TermSort) (args : List Term) :
    (Term.app label sort args).fold algebra =
      (sig.callHook label (args.map (Term.fold algebra))).getD
        (.app label sort (args.map (Term.fold algebra))) := by
  rw [Term.fold_app]
  refine respects.app_eq (fun loose => ?_) sort _
  rw [respects.unhooked label loose] at hooked
  cases hooked

/-- A change of the assignment makes no difference. -/
theorem after (respects : algebra.Respects sig loose) (s : Subst) :
    (algebra.after s).Respects sig loose :=
  { respects with normalizing := respects.normalizing.after s }

theorem fold_token (respects : algebra.Respects sig loose) (sort : TermSort) (value : String) :
    (Term.token sort value).fold algebra = .token sort value := by
  rw [Term.fold_token, respects.token]

end Term.Algebra.Respects

namespace Signature

variable {sig : Signature} {loose : String → Prop} {algebra : Term.Algebra Term} {s : Subst}
  {term : Term}

/-- Evaluation where the variables have these values. -/
def assigned (sig : Signature) (assign : Variable → Term) : Term.Algebra Term :=
  { sig.builtinAlgebra with var := assign }

theorem respects_assigned {assign : Variable → Term} (canonical : ∀ v, (assign v).Canonical) :
    (sig.assigned assign).Respects sig fun _ => False where
  normalizing := { sig.normalizing_builtinAlgebra with var := canonical }
  token := rfl
  hooked _ _ _ _ called := congrArg (Option.getD · _) called
  tight _ _ _ _ called := congrArg (Option.getD · _) called
  function _ := nofun
  unhooked _ := nofun

theorem respects_valuation (sig : Signature) (s : Subst) :
    (sig.valuation s).Respects sig fun _ => False :=
  respects_assigned fun v => sig.canonical_evalBuiltins (s.image v)

/-- What evaluation leaves of a property of subterms, where the variables have these values. -/
theorem everywhere_assigned {source holds : Term → Prop} {assign : Variable → Term}
    (everywhere : Term.Everywhere source term)
    (var : ∀ v, source (.var v) → (assign v).Everywhere holds)
    (token : ∀ sort value, source (.token sort value) → holds (.token sort value))
    (app : ∀ label sort args, source (.app label sort args) →
      sig.callHook label (args.map (Term.fold (sig.assigned assign))) = none →
        holds (.app label sort (args.map (Term.fold (sig.assigned assign)))))
    (bool : ∀ value, holds (.ofBool value)) (int : ∀ value, holds (.ofInt value))
    (string : ∀ value, holds (.ofString value))
    (collection : ∀ kind entries frame entries' frame',
      source (.collection kind entries frame) ∨ holds (.collection kind entries frame) →
        holds (.collection kind entries' frame')) :
    Term.Everywhere holds (term.fold (sig.assigned assign)) := by
  induction term using Term.induct with
  | var v => exact var v everywhere.here
  | token sort value => exact Term.Everywhere.token_iff.mpr (token sort value everywhere.here)
  | app label sort args ih =>
    obtain ⟨here, inner⟩ := Term.Everywhere.app_iff.mp everywhere
    have parts : ∀ arg ∈ args.map (Term.fold (sig.assigned assign)), Term.Everywhere holds arg := by
      intro image member
      obtain ⟨arg, inside, rfl⟩ := List.mem_map.mp member
      exact ih arg inside (inner arg inside)
    have unfolded : (Term.app label sort args).fold (sig.assigned assign) =
        (sig.callHook label (args.map (Term.fold (sig.assigned assign)))).getD
          (.app label sort (args.map (Term.fold (sig.assigned assign)))) :=
      Term.fold_app _ _ _ _
    rw [unfolded]
    cases called : sig.callHook label (args.map (Term.fold (sig.assigned assign))) with
    | none => exact Term.Everywhere.app_iff.mpr ⟨app label sort args here called, parts⟩
    | some result =>
      exact (result_of_callHook called).everywhere parts bool int string
        fun kind entries frame entries' frame' fits => collection kind entries frame _ _ (.inr fits)
  | collection kind entries frame ihEntries ihFrame =>
    obtain ⟨here, inner, last⟩ := Term.Everywhere.collection_iff.mp everywhere
    rw [Term.fold_collection]
    refine .normalized (fun entry member part inside => ?_) (fun rest member => ?_)
      fun _ _ => collection kind entries frame _ _ (.inl here)
    · obtain ⟨piece, present, pieces, within, rfl⟩ := Entry.mem_parts_map member inside
      exact ihEntries piece present pieces within (inner piece present pieces within)
    · obtain ⟨source, present, rfl⟩ := Option.map_eq_some_iff.mp member
      exact ihFrame source present (last source present)

/-- What evaluation leaves of a property of subterms. -/
theorem everywhere_evalBuiltins {source holds : Term → Prop}
    (everywhere : Term.Everywhere source term) (var : ∀ v, source (.var v) → holds (.var v))
    (token : ∀ sort value, source (.token sort value) → holds (.token sort value))
    (app : ∀ label sort args, source (.app label sort args) →
      sig.callHook label (args.map sig.evalBuiltins) = none →
        holds (.app label sort (args.map sig.evalBuiltins)))
    (bool : ∀ value, holds (.ofBool value)) (int : ∀ value, holds (.ofInt value))
    (string : ∀ value, holds (.ofString value))
    (collection : ∀ kind entries frame entries' frame',
      source (.collection kind entries frame) ∨ holds (.collection kind entries frame) →
        holds (.collection kind entries' frame')) :
    Term.Everywhere holds (sig.evalBuiltins term) :=
  @everywhere_assigned sig term source holds .var everywhere
    (fun v allowed => Term.Everywhere.var_iff.mpr (var v allowed)) token app bool int string collection

/-- Where the variables have ground values, every term has one. -/
theorem ground_assigned {assign : Variable → Term} (ground : ∀ v, (assign v).ground = true)
    (term : Term) : (term.fold (sig.assigned assign)).ground = true :=
  Term.Within.ground_iff.mp (everywhere_assigned
    (.of_forall fun _ => trivial : Term.Everywhere (fun _ => True) term)
    (fun v _ => Term.Within.ground_iff.mpr (ground v)) (fun _ _ _ => trivial)
    (fun _ _ _ _ _ => trivial) (fun _ => trivial) (fun _ => trivial) (fun _ => trivial)
    fun _ _ _ _ _ _ => trivial)

theorem evaluated_evalBuiltins (sig : Signature) (term : Term) :
    sig.Evaluated (sig.evalBuiltins term) :=
  everywhere_evalBuiltins (.of_forall fun _ => trivial : Term.Everywhere (fun _ => True) term)
    (fun _ _ => trivial) (fun _ _ _ => trivial) (fun _ _ _ _ settled => settled)
    (fun _ => trivial) (fun _ => trivial) (fun _ => trivial) fun _ _ _ _ _ _ => trivial

theorem unmapped_evalBuiltins (unmapped : term.Within sig.unmapped) :
    (sig.evalBuiltins term).Within sig.unmapped :=
  everywhere_evalBuiltins unmapped (fun _ => id) (fun _ _ => id) (fun _ _ _ here _ => here)
    (fun _ => trivial) (fun _ => trivial) (fun _ => trivial) fun _ _ _ _ _ _ => trivial

private theorem without_evalBuiltins (tight : term.Within (.without loose)) :
    (sig.evalBuiltins term).Within (.without loose) :=
  everywhere_evalBuiltins tight (fun _ => id) (fun _ _ => id) (fun _ _ _ here _ => here)
    (fun _ => trivial) (fun _ => trivial) (fun _ => trivial) fun _ _ _ _ _ _ => trivial

private theorem safelyHooked_of_stable (stable : term.Everywhere (sig.Stable loose)) :
    term.Everywhere (sig.SafelyHooked loose) := by
  refine stable.mono fun node here => ?_
  cases node with
  | app label sort args => exact here
  | _ => trivial

/-- Where no label is loose, it is enough that there are no builtins on maps. -/
theorem safelyHooked_of_unmapped (unmapped : term.Within sig.unmapped) :
    term.Everywhere (sig.SafelyHooked fun _ => False) := by
  refine unmapped.mono fun node allowed => ?_
  cases node with
  | app label sort args =>
    intro name hook hooked named
    refine ⟨allowed name hook hooked named, fun _ arg _ => .of_forall fun node => ?_⟩
    cases node <;> simp [Term.Fragment.allows, Term.Fragment.without]
  | _ => trivial

theorem safelyHooked_app_evalBuiltins {label : String} {sort : TermSort} {args : List Term}
    (safe : sig.SafelyHooked loose (.app label sort args)) :
    sig.SafelyHooked loose (.app label sort (args.map sig.evalBuiltins)) := by
  intro name hook hooked named
  obtain ⟨unmapped, structural⟩ := safe name hook hooked named
  refine ⟨unmapped, fun compares image member => ?_⟩
  obtain ⟨arg, inside, rfl⟩ := List.mem_map.mp member
  exact without_evalBuiltins (structural compares arg inside)

theorem stable_evalBuiltins (stable : term.Everywhere (sig.Stable loose)) :
    (sig.evalBuiltins term).Everywhere (sig.Stable loose) :=
  everywhere_evalBuiltins stable (fun _ => id) (fun _ _ => id)
    (fun label sort args here _ => @safelyHooked_app_evalBuiltins sig loose label sort args here)
    (fun _ => nofun) (fun number _ => ⟨number, rfl⟩)
    (fun _ => nofun) fun _ _ _ _ _ _ => trivial

theorem unmapped_of_plain (plain : term.Within sig.plain) : term.Within sig.unmapped := by
  refine plain.mono fun node allowed => ?_
  cases node with
  | app label sort args => exact allowed
  | _ => trivial

theorem stable_of_plain (plain : term.Within sig.plain) :
    term.Everywhere (sig.Stable fun _ => False) := by
  refine (plain.and (safelyHooked_of_unmapped (unmapped_of_plain plain))).mono
    fun node ⟨allowed, safe⟩ => ?_
  cases node with
  | app label sort args => exact safe
  | token sort value => exact allowed
  | _ => trivial

/-- A ground term that is evaluated and has no loose labels is its own value. -/
theorem fold_of_ground (respects : algebra.Respects sig loose) (canonical : term.Canonical)
    (evaluated : sig.Evaluated term) (tight : term.Within (.without loose))
    (ground : term.ground = true) : term.fold algebra = term := by
  refine Term.fold_eq_self canonical respects.normalizing.collection respects.token
    (fun v occurs => ?_) ((evaluated.and tight).mono fun node ⟨settled, allowed⟩ => ?_)
  · rw [(Term.ground_iff_vars_eq_nil term).mp ground] at occurs
    cases occurs
  · cases node with
    | app label sort args => exact respects.tight label sort args allowed settled
    | _ => trivial

end Signature

namespace Hook

variable {sig : Signature} {loose : String → Prop} {algebra : Term.Algebra Term} {kind : Kind}
  {args : List Term} {a b key container result : Term}

section Literal

variable (literal : ∀ sort value, (Term.token sort value).fold algebra = .token sort value)
include literal

theorem fold_of_int? {value : Int} (known : a.int? = some value) : a.fold algebra = a := by
  cases a with
  | token sort text => exact literal sort text
  | _ => cases known

theorem fold_of_bool? {value : Bool} (known : a.bool? = some value) : a.fold algebra = a := by
  rw [Term.bool?_eq_some_iff.mp known]
  exact literal _ _

private theorem fold_of_string? {value : String} (known : a.string? = some value) : a.fold algebra = a := by
  cases a with
  | token sort text => exact literal sort text
  | _ => cases known

omit literal in
theorem map_fold {α : Type} {read : Term → Option α} {op : α → Term}
    (fixed : ∀ c value, read c = some value → c.fold algebra = c)
    (tokens : ∀ x, (op x).fold algebra = op x) (made : (read a).map op = some result) :
    (read (a.fold algebra)).map op = some (result.fold algebra) := by
  obtain ⟨x, known, rfl⟩ := Option.map_eq_some_iff.mp made
  rw [fixed a x known, made, tokens]

omit literal in
theorem onBoth_fold {α : Type} {read : Term → Option α} {op : α → α → Option Term}
    (fixed : ∀ c value, read c = some value → c.fold algebra = c)
    (tokens : ∀ x y term, op x y = some term → term.fold algebra = term)
    (made : onBoth read op a b = some result) :
    onBoth read op (a.fold algebra) (b.fold algebra) = some (result.fold algebra) := by
  obtain ⟨x, y, left, right, whole⟩ := onBoth_eq_some made
  rw [fixed a x left, fixed b y right, made, tokens x y result whole]

private theorem conjunction_fold (made : conjunction a b = some result) :
    conjunction (a.fold algebra) (b.fold algebra) = some (result.fold algebra) := by
  have truth : Term.truth.fold algebra = .truth := literal _ _
  have falsity : Term.falsity.fold algebra = .falsity := literal _ _
  rcases conjunction_eq_some made with ⟨rfl | rfl, rfl⟩ | ⟨rfl, rfl⟩ | ⟨rfl, rfl⟩
  · rw [falsity]
    exact conjunction_falsity_left _
  · rw [falsity]
    exact conjunction_falsity_right _
  · rw [truth]
    exact conjunction_truth_left _
  · rw [truth]
    exact conjunction_truth_right _

private theorem disjunction_fold (made : disjunction a b = some result) :
    disjunction (a.fold algebra) (b.fold algebra) = some (result.fold algebra) := by
  have truth : Term.truth.fold algebra = .truth := literal _ _
  have falsity : Term.falsity.fold algebra = .falsity := literal _ _
  rcases disjunction_eq_some made with ⟨rfl | rfl, rfl⟩ | ⟨rfl, rfl⟩ | ⟨rfl, rfl⟩
  · rw [truth]
    exact disjunction_truth_left _
  · rw [truth]
    exact disjunction_truth_right _
  · rw [falsity]
    exact disjunction_falsity_left _
  · rw [falsity]
    exact disjunction_falsity_right _

private theorem implication_fold (made : implication a b = some result) :
    implication (a.fold algebra) (b.fold algebra) = some (result.fold algebra) := by
  have truth : Term.truth.fold algebra = .truth := literal _ _
  have falsity : Term.falsity.fold algebra = .falsity := literal _ _
  rcases implication_eq_some made with ⟨rfl | rfl, rfl⟩ | ⟨rfl, rfl⟩
  · rw [falsity, truth]
    exact implication_falsity _
  · rw [truth]
    exact implication_of_truth _
  · rw [truth]
    exact implication_truth _

theorem onGround_fold {op : Term → Term → Bool}
    (fixed : ∀ arg ∈ [a, b], arg.ground = true → arg.fold algebra = arg)
    (made : onGround op a b = some result) :
    onGround op (a.fold algebra) (b.fold algebra) = some (result.fold algebra) := by
  obtain ⟨left, right, rfl⟩ := onGround_eq_some made
  rw [fixed a (by simp) left, fixed b (by simp) right, made]
  exact congrArg some (literal _ _).symm

theorem count_fold (fixed : container.ground = true → container.fold algebra = container)
    (made : count kind container = some result) :
    count kind (container.fold algebra) = some (result.fold algebra) := by
  obtain ⟨_, _, ground, rfl⟩ := count_eq_some made
  rw [fixed ground, made]
  exact congrArg some (literal _ _).symm

end Literal

theorem locate_found_iff {entries : List (Entry Term)} :
    (∃ index entry, locate key entries = .found index entry) ↔
      key.ground = true ∧ ∃ entry ∈ entries, entry.key = key := by
  unfold locate
  by_cases ground : key.ground = true
  · rw [if_pos ground]
    cases position : entries.findIdx? (fun entry => entry.key = key) with
    | none =>
      have none := List.findIdx?_eq_none_iff.mp position
      have absent : ¬∃ entry ∈ entries, entry.key = key := by
        rintro ⟨entry, member, same⟩
        simpa [same] using none entry member
      simp only [ground, absent, and_false, iff_false, not_exists]
      intro index entry
      split <;> nofun
    | some index =>
      obtain ⟨below, same, _⟩ := List.findIdx?_eq_some_iff_getElem.mp position
      have stands : entries[index]? = some entries[index] := List.getElem?_eq_getElem below
      simp only [stands, ground, true_and]
      exact ⟨fun _ => ⟨_, List.getElem_mem below, by simpa using same⟩, fun _ => ⟨_, _, rfl⟩⟩
  · simp [ground]

theorem locate_absent_iff {entries : List (Entry Term)} :
    locate key entries = .absent ↔ key.ground = true ∧
      ∀ entry ∈ entries, entry.key.ground = true ∧ entry.key ≠ key := by
  unfold locate
  by_cases ground : key.ground = true
  · rw [if_pos ground]
    cases position : entries.findIdx? (fun entry => entry.key = key) with
    | none =>
      have none := List.findIdx?_eq_none_iff.mp position
      have absent : ∀ entry ∈ entries, entry.key ≠ key := by simpa using none
      simp only [ground, true_and]
      split
      · next all =>
        simp only [true_iff]
        exact fun entry member => ⟨List.all_eq_true.mp all entry member, absent entry member⟩
      · next some =>
        simp only [reduceCtorEq, false_iff]
        exact fun all => some (List.all_eq_true.mpr fun entry member => (all entry member).1)
    | some index =>
      obtain ⟨below, same, _⟩ := List.findIdx?_eq_some_iff_getElem.mp position
      have stands : entries[index]? = some entries[index] := List.getElem?_eq_getElem below
      simp only [stands, reduceCtorEq, ground, true_and, false_iff]
      intro all
      exact (all _ (List.getElem_mem below)).2 (by simpa using same)
  · simp [ground]

theorem member_collection {entries : List (Entry Term)} {frame : Option Term} :
    member kind key (.collection kind entries frame) =
      match locate key entries, frame with
      | .found _ _, _ => some .truth
      | .absent, none => some .falsity
      | _, _ => none := by
  rw [member, collection?, if_pos rfl]
  rfl

/-- Membership that is decided stays decided under an assignment. -/
theorem member_fold (normalizing : algebra.Normalizing)
    (literal : ∀ sort value, (Term.token sort value).fold algebra = .token sort value)
    (fixedKey : key.ground = true → key.fold algebra = key)
    (fixed : ∀ entries frame, container = .collection kind entries frame → ∀ entry ∈ entries,
      entry.key.ground = true → entry.key.fold algebra = entry.key)
    (made : member kind key container = some result) :
    member kind (key.fold algebra) (container.fold algebra) =
      some (result.fold algebra) := by
  obtain ⟨entries, frame, rfl, ⟨found, rfl⟩ | ⟨absent, rfl, rfl⟩⟩ := member_eq_some made
  · obtain ⟨ground, entry, present, same⟩ := locate_found_iff.mp found
    have filled : (entries.map (Entry.map (Term.fold algebra))) ≠ [] := by
      rw [ne_eq, List.map_eq_nil_iff]
      rintro rfl
      cases present
    rw [normalizing.fold_collection_eq, Term.normalized_eq_collection (Term.splice_ne_nil filled),
      member_collection, fixedKey ground]
    obtain ⟨index, image, stands⟩ := locate_found_iff.mpr ⟨ground, entry.map (Term.fold algebra),
      Term.mem_arrange.mpr (Term.mem_splice_of_mem (List.mem_map_of_mem present)), by
        rw [Entry.key_map, same, fixedKey ground]⟩
    rw [stands]
    exact congrArg some (literal _ _).symm
  · obtain ⟨ground, keys⟩ := locate_absent_iff.mp absent
    rw [normalizing.fold_collection_eq, Option.map_none, Term.normalized_none, member_collection,
      fixedKey ground]
    have still : locate key (Term.arrange kind (entries.map (Entry.map (Term.fold algebra)))) =
        .absent := by
      refine locate_absent_iff.mpr ⟨ground, fun image inside => ?_⟩
      obtain ⟨entry, present, rfl⟩ := List.mem_map.mp (Term.mem_arrange.mp inside)
      rw [Entry.key_map, fixed entries none rfl entry present (keys entry present).1]
      exact keys entry present
    rw [still]
    exact congrArg some (literal _ _).symm

/-- What a hook determines before the variables are replaced it determines afterwards, if it does not
look into maps and ground terms that it compares are left alone. -/
theorem apply_fold {hook : Hook} (normalizing : algebra.Normalizing)
    (literal : ∀ sort value, (Term.token sort value).fold algebra = .token sort value)
    (unmapped : hook.isMap = false)
    (fixed : hook.isStructural = true → ∀ arg ∈ args, arg.ground = true → arg.fold algebra = arg)
    (fixedKeys : hook.isStructural = true → ∀ kind entries frame,
      .collection kind entries frame ∈ args → ∀ entry ∈ entries,
        entry.key.ground = true → entry.key.fold algebra = entry.key)
    (made : hook.apply args = some result) :
    hook.apply (args.map (Term.fold algebra)) = some (result.fold algebra) := by
  have ints (c : Term) (value : Int) : c.int? = some value → c.fold algebra = c := fold_of_int? literal
  have bools (c : Term) (value : Bool) : c.bool? = some value → c.fold algebra = c := fold_of_bool? literal
  have strings (c : Term) (value : String) : c.string? = some value → c.fold algebra = c :=
    fold_of_string? literal
  unfold apply at made
  split at made
  · exact onBoth_fold ints (fun x y term same => by cases same; exact literal _ _) made
  · exact onBoth_fold ints (fun x y term same => by cases same; exact literal _ _) made
  · exact onBoth_fold ints (fun x y term same => by cases same; exact literal _ _) made
  · refine onBoth_fold ints (fun x y term same => ?_) made
    split at same <;> cases same
    exact literal _ _
  · refine onBoth_fold ints (fun x y term same => ?_) made
    split at same <;> cases same
    exact literal _ _
  · exact onBoth_fold ints (fun x y term same => by cases same; exact literal _ _) made
  · exact onBoth_fold ints (fun x y term same => by cases same; exact literal _ _) made
  · exact map_fold ints (fun _ => literal _ _) made
  · exact onBoth_fold ints (fun x y term same => by cases same; exact literal _ _) made
  · exact map_fold bools (fun _ => literal _ _) made
  · exact conjunction_fold literal made
  · exact disjunction_fold literal made
  · exact implication_fold literal made
  · exact onBoth_fold bools (fun x y term same => by cases same; exact literal _ _) made
  · exact onBoth_fold bools (fun x y term same => by cases same; exact literal _ _) made
  · exact onBoth_fold strings (fun x y term same => by cases same; exact literal _ _) made
  · exact map_fold strings (fun _ => literal _ _) made
  · exact onBoth_fold strings (fun x y term same => by cases same; exact literal _ _) made
  · exact onGround_fold literal (fixed rfl) made
  · exact onGround_fold literal (fixed rfl) made
  · cases unmapped
  · cases unmapped
  · cases unmapped
  · cases unmapped
  · cases unmapped
  · refine member_fold normalizing literal (fixed rfl _ (by simp)) (fun entries frame shape => ?_) made
    exact fixedKeys rfl .set entries frame (by simp [shape])
  · exact count_fold literal (fixed rfl _ (by simp)) made
  · exact count_fold literal (fixed rfl _ (by simp)) made
  · exact map_fold strings (fun _ => literal _ _) made
  · cases made

end Hook

namespace Signature

variable {sig : Signature} {loose : String → Prop} {algebra : Term.Algebra Term} {term : Term}

/-- What a hook determines stays determined where ground arguments, and ground keys of arguments, are
left alone if the hook compares terms as they are written. -/
theorem callHook_fold {label : String} {args : List Term} {result : Term}
    (normalizing : algebra.Normalizing)
    (literal : ∀ sort value, (Term.token sort value).fold algebra = .token sort value)
    (unmapped : ∀ name hook, sig.hook? label = some name → Hook.ofName? name = some hook →
      hook.isMap = false)
    (fixed : ∀ name hook, sig.hook? label = some name → Hook.ofName? name = some hook →
      hook.isStructural = true → (∀ arg ∈ args, arg.ground = true → arg.fold algebra = arg) ∧
        ∀ kind entries frame, .collection kind entries frame ∈ args → ∀ entry ∈ entries,
          entry.key.ground = true → entry.key.fold algebra = entry.key)
    (made : sig.callHook label args = some result) :
    sig.callHook label (args.map (Term.fold algebra)) = some (result.fold algebra) := by
  obtain ⟨name, hooked, made⟩ := Option.bind_eq_some_iff.mp made
  obtain ⟨hook, named, made⟩ := Option.bind_eq_some_iff.mp made
  have after := Hook.apply_fold normalizing literal (unmapped name hook hooked named)
    (fun compares => (fixed name hook hooked named compares).1)
    (fun compares => (fixed name hook hooked named compares).2) made
  simp only [callHook, Hook.applyNamed, hooked, named, Option.bind_eq_bind, Option.bind_some, after]

private theorem callHook_fold_of_safelyHooked (respects : algebra.Respects sig loose) {label : String}
    {sort : TermSort} {args : List Term} {result : Term}
    (safe : sig.SafelyHooked loose (.app label sort args)) (canonical : ∀ arg ∈ args, arg.Canonical)
    (evaluated : ∀ arg ∈ args, sig.Evaluated arg) (made : sig.callHook label args = some result) :
    sig.callHook label (args.map (Term.fold algebra)) = some (result.fold algebra) := by
  refine callHook_fold respects.normalizing respects.fold_token
    (fun name hook hooked named => (safe name hook hooked named).1)
    (fun name hook hooked named compares => ?_) made
  have tight := (safe name hook hooked named).2 compares
  refine ⟨fun arg member => fold_of_ground respects (canonical arg member) (evaluated arg member)
    (tight arg member), fun kind entries frame given entry member => ?_⟩
  refine fold_of_ground respects ?_ ?_ ?_
  · exact (canonical _ given).of_entry entry member _ entry.key_mem_parts
  · exact (Term.Everywhere.collection_iff.mp (evaluated _ given)).2.1 entry member _
      entry.key_mem_parts
  · exact (Term.Everywhere.collection_iff.mp (tight _ given)).2.1 entry member _
      entry.key_mem_parts

/-- Evaluating the builtins before an instantiation makes no difference to the value of the
instance. -/
theorem fold_evalBuiltins_of_safelyHooked (respects : algebra.Respects sig loose)
    (safe : term.Everywhere (sig.SafelyHooked loose)) :
    (sig.evalBuiltins term).fold algebra = term.fold algebra := by
  induction term using Term.induct with
  | var v => rfl
  | token sort value => rfl
  | app label sort args ih =>
    obtain ⟨here, inner⟩ := Term.Everywhere.app_iff.mp safe
    have parts : (args.map sig.evalBuiltins).map (Term.fold algebra) =
        args.map (Term.fold algebra) := by
      rw [List.map_map]
      exact List.map_congr_left fun arg member => ih arg member (inner arg member)
    rw [evalBuiltins_app, Term.fold_app, ← parts]
    cases called : sig.callHook label (args.map sig.evalBuiltins) with
    | none => exact Term.fold_app _ _ _ _
    | some result =>
      have after := callHook_fold_of_safelyHooked respects (safelyHooked_app_evalBuiltins here)
        (fun image member => ?_) (fun image member => ?_) called
      · exact (respects.hooked label sort _ _ after).symm
      · obtain ⟨arg, _, rfl⟩ := List.mem_map.mp member
        exact sig.canonical_evalBuiltins arg
      · obtain ⟨arg, _, rfl⟩ := List.mem_map.mp member
        exact sig.evaluated_evalBuiltins arg
  | collection kind entries frame ihEntries ihFrame =>
    have normalizing := respects.normalizing
    obtain ⟨_, inner, last⟩ := Term.Everywhere.collection_iff.mp safe
    rw [evalBuiltins_collection, normalizing.fold_normalized, normalizing.fold_collection_eq,
      List.map_map, Option.map_map]
    congr 1
    · refine List.map_congr_left fun entry member => ?_
      rw [Function.comp_apply, Entry.map_map]
      exact Entry.map_congr fun part inside =>
        ihEntries entry member part inside (inner entry member part inside)
    · exact Option.map_congr fun rest member => ihFrame rest member (last rest member)

theorem fold_evalBuiltins (respects : algebra.Respects sig loose)
    (stable : term.Everywhere (sig.Stable loose)) :
    (sig.evalBuiltins term).fold algebra = term.fold algebra :=
  fold_evalBuiltins_of_safelyHooked respects (safelyHooked_of_stable stable)

end Signature

end Reach
