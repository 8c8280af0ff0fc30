import Reach.Proofs.Successors

/-!
Rewriting keeps terms well-sorted. The terms whose applications fit their declarations, and whose entries
and frames fit their kinds, are a class that neither evaluation nor the application of a rule leaves. Only
the keys of a map may come to repeat, since two keys with variables can become one.
-/

namespace Reach

namespace Hook

variable {hook : Hook} {args : List Term} {result : Term}

/-- On maps a hook gives a token of its sort, a part of an entry, or a map of entries that were there and
of bindings of its arguments. -/
theorem token_or_part_or_map (mapped : hook.isMap = true) (made : hook.apply args = some result) :
    (∃ value, result = .token hook.sort value) ∨
      (hook.sort = .top ∧ ∃ entries frame, .collection .map entries frame ∈ args ∧
        ∃ entry ∈ entries, result ∈ entry.parts) ∨
      hook.sort = .map ∧ ∃ entries frame kept, .collection .map entries frame ∈ args ∧
        (∀ entry ∈ kept, entry ∈ entries ∨ ∃ key ∈ args, ∃ value ∈ args, entry = .binding key value) ∧
        result = .normalized .map kept frame := by
  have token (sort : TermSort) (value : String) : ∃ text, Term.token sort value = .token sort text :=
    ⟨value, rfl⟩
  unfold apply at made
  split at made <;> try cases mapped
  · next container key =>
    obtain ⟨⟨entries, frame⟩, shape, rest⟩ := Option.bind_eq_some_iff.mp made
    obtain rfl := collection?_eq_some shape
    refine .inr (.inl ⟨rfl, entries, frame, List.mem_cons_self, ?_⟩)
    dsimp only at rest
    split at rest
    · next found =>
      cases rest
      exact ⟨_, List.mem_of_getElem? (getElem?_of_locate found), by simp [Entry.parts]⟩
    · next found =>
      cases rest
      exact ⟨_, List.mem_of_getElem? (getElem?_of_locate found), by simp [Entry.parts]⟩
    · cases rest
  · next container key value =>
    obtain ⟨⟨entries, frame⟩, shape, rest⟩ := Option.bind_eq_some_iff.mp made
    obtain rfl := collection?_eq_some shape
    obtain ⟨kept, left, whole⟩ := Option.bind_eq_some_iff.mp rest
    cases whole
    refine .inr (.inr ⟨rfl, entries, frame, _, List.mem_cons_self, fun entry member => ?_, rfl⟩)
    rcases List.mem_append.mp member with old | new
    · exact .inl ((without_sublist left).subset old)
    · obtain rfl := List.mem_singleton.mp new
      exact .inr ⟨key, by simp, value, by simp, rfl⟩
  · next container key =>
    obtain ⟨⟨entries, frame⟩, shape, rest⟩ := Option.bind_eq_some_iff.mp made
    obtain rfl := collection?_eq_some shape
    obtain ⟨kept, left, whole⟩ := Option.bind_eq_some_iff.mp rest
    cases whole
    exact .inr (.inr ⟨rfl, entries, frame, kept, List.mem_cons_self,
      fun entry member => .inl ((without_sublist left).subset member), rfl⟩)
  · obtain ⟨_, _, _, ⟨_, rfl⟩ | ⟨_, _, rfl⟩⟩ := member_eq_some made
    · exact .inl (token _ _)
    · exact .inl (token _ _)
  · obtain ⟨entries, _, _, rfl⟩ := count_eq_some made
    exact .inl (token _ _)
  · cases made

end Hook

namespace Signature

variable {sig : Signature} {term : Term} {label : String} {sort : TermSort} {args : List Term}

/-- Applications fit their declarations, and entries and frames fit their kinds; keys may repeat. -/
def sorts (sig : Signature) : Discipline where
  var _ := True
  app label sort args := sig.Fits (.app label sort args)
  entry kind item := kind.checkShape item = .ok ()
  fits expected found := expected.accepts found = true
  fits_of_accepts := id
  fits_trans := TermSort.accepts_trans
  app_map := by
    rintro label sort args f ⟨decl, declared, same, size, accepted⟩ sorts
    refine ⟨decl, declared, same, by simpa using size, fun pair member => ?_⟩
    rw [List.zip_map_right] at member
    obtain ⟨⟨expected, arg⟩, present, rfl⟩ := List.mem_map.mp member
    exact TermSort.accepts_trans (accepted (expected, arg) present)
      (sorts arg (List.of_mem_zip present).2)
  entry_map f shape := (Term.checkShape_map _ f _).trans shape

theorem contains_of_check (checked : sig.check term = .ok ()) : sig.sorts.Contains term := by
  refine ((check_eq_ok_iff sig term).mp checked).mono fun node fits => ?_
  cases node with
  | var v => trivial
  | token sort value => trivial
  | app label sort args => exact fits
  | collection kind entries frame =>
    refine ⟨fits.1, fun rest member => ?_⟩
    rw [fits.2.1 rest member]
    exact TermSort.accepts_self kind.sort

/-- Nothing is wrong, except that a key may be there twice. -/
def Lenient (outcome : Except SortError Unit) : Prop :=
  outcome = .ok () ∨ ∃ key, outcome = .error (.duplicateKey key)

theorem lenient_ok : Lenient (.ok ()) :=
  .inl rfl

theorem Lenient.seq {first : Except SortError Unit} {next : Unit → Except SortError Unit}
    (lenient : Lenient first) (later : Lenient (next ())) : Lenient (first >>= next) := by
  rcases lenient with rfl | ⟨key, rfl⟩
  · exact later
  · exact .inr ⟨key, rfl⟩

private theorem lenient_forM {α : Type} {items : List α} {action : α → Except SortError Unit}
    (each : ∀ item ∈ items, Lenient (action item)) : Lenient (items.forM action) := by
  induction items with
  | nil => exact lenient_ok
  | cons item rest ih =>
    obtain ⟨here, later⟩ := List.forall_mem_cons.mp each
    exact here.seq (ih later)

private theorem lenient_checkKeys (kind : Kind) (entries : List (Entry Term)) :
    Lenient (kind.checkKeys entries) := by
  unfold Kind.checkKeys
  split
  · refine lenient_forM fun pair _ => ?_
    dsimp only
    split
    · exact .inr ⟨_, rfl⟩
    · exact lenient_ok
  · exact lenient_ok

private theorem lenient_checkAll (each : ∀ arg ∈ args, Lenient (sig.check arg)) :
    Lenient (sig.checkAll args) := by
  induction args with
  | nil => exact lenient_ok
  | cons arg rest ih =>
    obtain ⟨here, later⟩ := List.forall_mem_cons.mp each
    exact here.seq (ih later)

private theorem lenient_checkEntries {kind : Kind} {entries : List (Entry Term)}
    (shapes : ∀ entry ∈ entries, kind.checkShape entry = .ok ())
    (each : ∀ entry ∈ entries, ∀ part ∈ entry.parts, Lenient (sig.check part)) :
    Lenient (sig.checkEntries kind entries) := by
  induction entries with
  | nil => exact lenient_ok
  | cons entry rest ih =>
    obtain ⟨shape, shapes⟩ := List.forall_mem_cons.mp shapes
    obtain ⟨here, later⟩ := List.forall_mem_cons.mp each
    have first : Lenient (sig.checkEntry kind entry) := by
      cases entry with
      | element item =>
        have item := here item (by simp [Entry.parts])
        exact Lenient.seq (.inl shape) item
      | binding key value =>
        have first := here key (by simp [Entry.parts])
        have second := here value (by simp [Entry.parts])
        exact Lenient.seq (.inl shape) (first.seq second)
    exact first.seq (ih shapes later)

/-- A term of the class has nothing else wrong with it. -/
theorem lenient_check (contains : sig.sorts.Contains term) : Lenient (sig.check term) := by
  induction term using Term.induct with
  | var v => exact lenient_ok
  | token sort value => exact lenient_ok
  | app label sort args ih =>
    obtain ⟨⟨decl, declared, same, fitting⟩, inner⟩ := Term.Everywhere.app_iff.mp contains
    have all := lenient_checkAll fun arg member => ih arg member (inner arg member)
    have unfolded : sig.check (.app label sort args) =
        (decl.checkArgs args >>= fun _ => sig.checkAll args) := by
      rw [check, label_eq_ok_iff.mpr declared]
      exact if_neg (not_not.mpr same)
    rw [unfolded]
    exact Lenient.seq (.inl (checkArgs_eq_ok_iff.mpr fitting)) all
  | collection kind entries frame ihEntries ihFrame =>
    obtain ⟨shapes, parts, last⟩ := Discipline.contains_collection_iff.mp contains
    rw [check]
    refine Lenient.seq (lenient_checkEntries shapes fun entry member part inside =>
      ihEntries entry member part inside (parts entry member part inside)) (Lenient.seq ?_ ?_)
    · cases frame with
      | none => exact lenient_ok
      | some rest =>
        have sorted : rest.sort = kind.sort := Term.sort_eq_of_accepts (last rest rfl).fits
        refine Lenient.seq (.inl ?_) (ihFrame rest rfl (last rest rfl).contains)
        exact if_pos sorted
    · exact lenient_checkKeys kind entries

/-- Every hooked label is one that comes with the builtin sorts. -/
def BuiltinHooks (sig : Signature) : Prop :=
  ∀ label decl, sig.labels.get? label = some decl → decl.hook.isSome = true →
    builtin.labels.get? label = some decl

theorem BuiltinHooks.sorted (builtin : sig.BuiltinHooks) : sig.HooksSorted := by
  intro label decl declared name hooked
  have given : Signature.builtin.labels.get? label = some decl :=
    builtin label decl declared (Option.isSome_iff_exists.mpr ⟨name, hooked⟩)
  exact hooksSorted_builtin label decl given name hooked

private theorem builtinHooks_builtin : builtin.BuiltinHooks :=
  fun _ _ declared _ => declared

theorem BuiltinHooks.declareAll {decls : List Declaration} {next : Signature} (builtin : sig.BuiltinHooks)
    (unhooked : ∀ decl ∈ decls, decl.hook = none) (declared : sig.declareAll decls = .ok next) :
    next.BuiltinHooks := by
  refine holds_of_declareAll BuiltinHooks builtin (fun sig next decl member before step => ?_) declared
  intro label other found hooked
  rw [(get?_of_declare step label).2] at found
  split at found
  · cases found
    rw [unhooked decl member] at hooked
    cases hooked
  · exact before label other found hooked

/-- What a hook gives is well-sorted, and may stand for the application. -/
theorem HooksSorted.has_of_callHook (sorted : sig.HooksSorted) {result : Term}
    (fitting : sig.Fits (.app label sort args)) (parts : ∀ arg ∈ args, sig.sorts.Contains arg)
    (called : sig.callHook label args = some result) : sig.sorts.Has sort result := by
  obtain ⟨decl, declared, rfl, size, accepted⟩ := fitting
  obtain ⟨name, hooked, called⟩ := Option.bind_eq_some_iff.mp called
  obtain ⟨hook, named, made⟩ := Option.bind_eq_some_iff.mp called
  have holds : decl.hook = some name := by
    rw [hook?, declared] at hooked
    exact hooked
  obtain ⟨fits, bools⟩ := sorted label decl declared name holds hook named
  have token (value : String) : sig.sorts.Has decl.sort (.token hook.sort value) :=
    (sig.sorts.has_token hook.sort value).mono fits
  cases mapped : hook.isMap with
  | false =>
    rcases Hook.token_or_arg mapped made with ⟨value, rfl⟩ | ⟨connective, given⟩
    · exact token value
    · refine ⟨parts result given, TermSort.accepts_trans fits ?_⟩
      rw [← List.map_snd_zip (Nat.le_of_eq size.symm)] at given
      obtain ⟨⟨expected, _⟩, paired, rfl⟩ := List.mem_map.mp given
      rw [Hook.sort_of_isConnective connective, ← bools connective expected (List.of_mem_zip paired).1]
      exact accepted _ paired
  | true =>
    rcases Hook.token_or_part_or_map mapped made with ⟨value, rfl⟩ |
      ⟨top, entries, frame, given, entry, member, inside⟩ |
      ⟨map, entries, frame, kept, given, origins, rfl⟩
    · exact token value
    · have filled := Discipline.contains_collection_iff.mp (parts _ given)
      refine ⟨filled.parts entry member result inside, TermSort.accepts_trans fits ?_⟩
      rw [top]
      cases result.sort <;> rfl
    · have filled := Discipline.contains_collection_iff.mp (parts _ given)
      have fills : sig.sorts.Fills .map kept frame := by
        refine ⟨fun entry member => ?_, fun entry member part inside => ?_, filled.last⟩
        · rcases origins entry member with old | ⟨key, _, value, _, rfl⟩
          · exact filled.shapes entry old
          · rfl
        · rcases origins entry member with old | ⟨key, keyed, value, valued, rfl⟩
          · exact filled.parts entry old part inside
          · rcases List.mem_pair.mp inside with rfl | rfl
            · exact parts _ keyed
            · exact parts _ valued
      rw [map] at fits
      exact fills.normalized.mono fits

end Signature

namespace Definition

variable {sig : Signature} {rules : List Rule} {d : Definition} {rule : Rule}

theorem admissible_of_check (checked : rule.check sig = .ok ()) : sig.sorts.Admissible rule := by
  obtain ⟨terms, rest⟩ := seq_eq_ok_iff.mp checked
  obtain ⟨lookups, _⟩ := seq_eq_ok_iff.mp rest
  have each := forM_eq_ok_iff.mp terms
  exact {
    lhs := Signature.contains_of_check (each rule.lhs (by simp))
    rhs := Signature.contains_of_check (each rule.rhs (by simp))
    requires := Signature.contains_of_check (each rule.requires (by simp))
    ensures := Signature.contains_of_check (each rule.ensures (by simp))
    lookups := fun lookup member => by
      obtain ⟨pattern, expr⟩ := seq_eq_ok_iff.mp (forM_eq_ok_iff.mp lookups lookup member)
      exact ⟨Signature.contains_of_check pattern, Signature.contains_of_check expr⟩
    freshConstants := fun _ _ => trivial
    freshVariables := fun _ _ => trivial }

private theorem governs_of_ofRules (hooks : sig.BuiltinHooks) (made : ofRules sig rules = .ok d) :
    sig.sorts.Governs d := by
  obtain ⟨parted, checked⟩ := parted_of_ofRules made
  obtain rfl := parted.signature
  refine ⟨hooks.sorted.has_of_callHook, fun label rule member => ?_,
    fun {label sort args} fitting rule member => ?_⟩
  · exact admissible_of_check (checked rule (parted.mem_functionRules member).1)
  · obtain ⟨listed, head, _⟩ := parted.mem_functionRules member
    obtain ⟨terms, accepted⟩ := Rule.check_terms (checked rule listed)
    have declared := (Signature.within_declared (terms rule.lhs (by simp))).here
    obtain ⟨decl, found, same, _⟩ := fitting
    have sorted : rule.lhs.sort = sort := by
      cases shape : rule.lhs with
      | app other sort' args' =>
        rw [shape] at head declared
        cases head
        exact Signature.sort_eq_of_declared declared ⟨decl, found, same⟩
      | _ =>
        rw [shape] at head
        cases head
    rw [← sorted]
    exact accepted

end Definition

open Engine in
/-- Rewriting keeps terms well-sorted. Whatever rule of the definition is applied to a well-sorted state,
in either mode, the check of the term of each successor finds nothing wrong but a repeated key. The same
holds of the value of a well-sorted term, and its sort is one that the sort of the term accepts. -/
theorem well_sorted_of_rewriting {sig : Signature} {rules : List Rule} {context : Context}
    (hooks : sig.BuiltinHooks) (defined : Definition.ofRules sig rules = .ok context.definition) :
    (∀ rule ∈ rules, ∀ (state : State) (mode : Mode) (limit : Option Nat) (world : World)
        (successors : List Successor) (after : World), sig.check state.term = .ok () →
      Gives (applyRule rule state mode limit) context world successors after →
        ∀ next ∈ successors, Signature.Lenient (sig.check next.state.term)) ∧
      ∀ (limit : Nat) (term value : Term), sig.check term = .ok () →
        context.definition.evaluate limit term = .ok value →
          Signature.Lenient (sig.check value) ∧ term.sort.accepts value.sort = true := by
  have governs := Definition.governs_of_ofRules hooks defined
  have checked := (Definition.parted_of_ofRules defined).2
  refine ⟨fun rule listed state mode limit world successors after sorted gives next member => ?_,
    fun limit term value sorted made => ?_⟩
  · have admissible := Definition.admissible_of_check (checked rule listed)
    have given := Signature.contains_of_check sorted
    have allowed (v : Variable) : sig.sorts.var v := trivial
    refine Signature.lenient_check ?_
    rcases origin_of_applyRule gives next member with
      ⟨_, s, matched, bindings, looked, s', among, _, _, made⟩ |
      ⟨_, explore, started, unifier, yields, bindings, looked, s', among, _, _, made⟩
    · have binds := Discipline.binds_empty.matches (fun v _ => allowed v) given matched
      have extended := governs.binds_lookups binds admissible.lookups looked s' among
      exact governs.successor? admissible extended made fun v _ => allowed v
    · have renamed := @admissible.renameApart _ _ world.fresh fun v _ => allowed v
      have unifies := (Discipline.keeps_start renamed.lhs given).run allowed
        (Unification.run_of_unify started yields)
      have extended := governs.binds_lookups unifies.binds renamed.lookups looked s' among
      exact governs.successor? renamed extended made fun v _ => allowed v
  · have has := governs.has_evaluate (Signature.contains_of_check sorted) made
    exact ⟨Signature.lenient_check has.contains, has.fits⟩

/-- A number becomes a key beside the key `1`. -/
def doubling : Rule where
  label := "double"
  lhs := .app "number" (.named "S") [.var ⟨"X", .int⟩]
  rhs := .app "table" (.named "S")
    [.collection .map [.binding (.var ⟨"X", .int⟩) (.ofInt 0), .binding (.ofInt 1) (.ofInt 1)] none]

def tables : List Declaration :=
  [.constructor "number" [.int] (.named "S"), .constructor "table" [.map] (.named "S")]

def doubled : Context where
  definition :=
    { signature := ⟨Assoc.ofList ((Signature.builtinDeclarations ++ tables).map fun decl => (decl.name, decl))⟩
      rules := [doubling]
      index := Assoc.empty.insert "number" [0]
      unindexed := []
      functions := .empty }

private theorem doubled_declared : Signature.builtin.declareAll tables = .ok doubled.definition.signature :=
  rfl

/-- The number `1` becomes a key a second time, and nothing else is wrong. The value of `1 + 1` is an
integer. -/
theorem well_sorted_of_rewriting_twice :
    let state : State := { term := .app "number" (.named "S") [.ofInt 1] }
    let sum : Term := .app Label.intAdd .int [.ofInt 1, .ofInt 1]
    (∃ next after, Engine.Gives (Engine.applyRule doubling state .matching none) doubled {} [next] after ∧
        doubled.definition.signature.check next.state.term = .error (.duplicateKey (.ofInt 1)) ∧
        Signature.Lenient (doubled.definition.signature.check next.state.term)) ∧
      doubled.definition.evaluate 1 sum = .ok (.ofInt 2) ∧
      Signature.Lenient (doubled.definition.signature.check (.ofInt 2)) ∧
      sum.sort.accepts (Term.ofInt 2).sort = true := by
  intro state sum
  have hooks : doubled.definition.signature.BuiltinHooks :=
    Signature.builtinHooks_builtin.declareAll (by decide) doubled_declared
  have defined : Definition.ofRules doubled.definition.signature [doubling] = .ok doubled.definition := rfl
  obtain ⟨rewriting, evaluation⟩ := well_sorted_of_rewriting hooks defined
  have made : doubled.definition.evaluate 1 sum = .ok (.ofInt 2) := by
    decide +kernel
  refine ⟨?_, made, evaluation 1 sum _ (by decide +kernel) made⟩
  let next : Successor :=
    { state := { term := .app "table" (.named "S") [.collection .map
        [.binding (.ofInt 1) (.ofInt 0), .binding (.ofInt 1) (.ofInt 1)] none] }
      rule := "double"
      transition := false
      narrowing := .empty
      condition := .top }
  obtain ⟨after, gives⟩ := Engine.exists_gives
    (show ((Engine.applyRule doubling state .matching none : Engine _).run doubled {}).1 = .ok [next] by
      decide +kernel)
  exact ⟨next, after, gives, by decide +kernel, rewriting doubling List.mem_cons_self state .matching none
    {} [next] after (by decide +kernel) gives next List.mem_cons_self⟩

end Reach
