import Reach.Proofs.Subterm
import Reach.Signature.Builtin

/-!
What a hook can give: a token, one of its arguments or a part of one, or a map rebuilt from a map.
So the evaluation of builtins is a normalizing fold, evaluating an instance is one fold of the term,
and an evaluated term has no application left that a hook determines.
-/

namespace Reach

namespace Hook

variable {kind : Kind} {entries kept : List (Entry Term)} {frame : Option Term} {args : List Term}
  {a b key value container result : Term}

/-- The terms that a hook can make of its arguments. -/
inductive Result (args : List Term) : Term → Prop
  | bool (value : Bool) : Result args (.ofBool value)
  | int (value : Int) : Result args (.ofInt value)
  | string (value : String) : Result args (.ofString value)
  | arg {term : Term} (given : term ∈ args) : Result args term
  | part {kind : Kind} {entries : List (Entry Term)} {frame : Option Term} {entry : Entry Term}
      {term : Term} (given : .collection kind entries frame ∈ args) (member : entry ∈ entries)
      (inside : term ∈ entry.parts) : Result args term
  | rebuilt {kind : Kind} {entries kept : List (Entry Term)} {frame : Option Term}
      (given : .collection kind entries frame ∈ args)
      (parts : ∀ entry ∈ kept, entry ∈ entries ∨ ∀ part ∈ entry.parts, part ∈ args) :
      Result args (.normalized kind kept frame)

theorem collection?_eq_some (shape : collection? kind container = some (entries, frame)) :
    container = .collection kind entries frame := by
  cases container with
  | collection actual present rest =>
    rw [collection?] at shape
    split at shape
    · next same =>
      cases shape
      rw [same]
    · cases shape
  | _ => cases shape

theorem getElem?_of_locate {index : Nat} {entry : Entry Term}
    (found : locate key entries = .found index entry) : entries[index]? = some entry := by
  unfold locate at found
  split at found
  · split at found
    · split at found
      · next stands =>
        cases found
        exact stands
      · cases found
    · split at found <;> cases found
  · cases found

theorem without_sublist (left : without key entries frame = some kept) :
    kept.Sublist entries := by
  unfold without at left
  split at left
  · cases left
    exact List.eraseIdx_sublist entries _
  · cases left
    exact .refl entries
  · cases left

theorem onBoth_eq_some {α : Type} {read : Term → Option α} {op : α → α → Option Term}
    (made : onBoth read op a b = some result) :
    ∃ x y, read a = some x ∧ read b = some y ∧ op x y = some result := by
  obtain ⟨x, left, made⟩ := Option.bind_eq_some_iff.mp made
  obtain ⟨y, right, made⟩ := Option.bind_eq_some_iff.mp made
  exact ⟨x, y, left, right, made⟩

theorem onGround_eq_some {op : Term → Term → Bool} (made : onGround op a b = some result) :
    a.ground = true ∧ b.ground = true ∧ result = .ofBool (op a b) := by
  unfold onGround at made
  split at made
  · next ground =>
    obtain ⟨left, right⟩ := Bool.and_eq_true_iff.mp ground
    exact ⟨left, right, (Option.some.inj made).symm⟩
  · cases made

theorem member_eq_some (made : member kind key container = some result) :
    ∃ entries frame, container = .collection kind entries frame ∧
      ((∃ index entry, locate key entries = .found index entry) ∧ result = .truth ∨
        locate key entries = .absent ∧ frame = none ∧ result = .falsity) := by
  obtain ⟨⟨entries, frame⟩, shape, rest⟩ := Option.bind_eq_some_iff.mp made
  refine ⟨entries, frame, collection?_eq_some shape, ?_⟩
  dsimp only at rest
  split at rest
  · next index entry found => exact .inl ⟨⟨index, entry, found⟩, (Option.some.inj rest).symm⟩
  · next absent => exact .inr ⟨absent, rfl, (Option.some.inj rest).symm⟩
  · cases rest

theorem count_eq_some (made : count kind container = some result) :
    ∃ entries, container = .collection kind entries none ∧ container.ground = true ∧
      result = .ofInt entries.length := by
  obtain ⟨⟨entries, frame⟩, shape, rest⟩ := Option.bind_eq_some_iff.mp made
  obtain rfl := collection?_eq_some shape
  dsimp only at rest
  split at rest
  · next known =>
    obtain ⟨bare, ground⟩ := Bool.and_eq_true_iff.mp known
    obtain rfl := Option.isNone_iff_eq_none.mp bare
    refine ⟨entries, rfl, ?_, (Option.some.inj rest).symm⟩
    rw [Term.ground_collection, ground]
    rfl
  · cases rest

section Connectives

@[simp]
theorem conjunction_falsity_left (b : Term) : conjunction .falsity b = some .falsity := rfl

@[simp]
theorem conjunction_falsity_right (a : Term) : conjunction a .falsity = some .falsity := by
  rcases known : a.bool? with _ | _ | _ <;> simp [conjunction, Term.falsity, known]

@[simp]
theorem conjunction_truth_left (b : Term) : conjunction .truth b = some b := by
  rcases known : b.bool? with _ | _ | _ <;> simp [conjunction, Term.truth, known]
  exact (Term.bool?_eq_some_iff.mp known).symm

@[simp]
theorem conjunction_truth_right (a : Term) : conjunction a .truth = some a := by
  rcases known : a.bool? with _ | _ | _
  · simp [conjunction, Term.truth, known]
  · simp [conjunction, Term.bool?_eq_some_iff.mp known, Term.falsity]
  · simp [conjunction, Term.bool?_eq_some_iff.mp known, Term.truth]

theorem conjunction_eq_some (made : conjunction a b = some result) :
    (a = .falsity ∨ b = .falsity) ∧ result = .falsity ∨ a = .truth ∧ result = b ∨
      b = .truth ∧ result = a := by
  unfold conjunction at made
  split at made <;> cases made
  · next known => exact .inl ⟨.inl (Term.bool?_eq_some_iff.mp known), rfl⟩
  · next known _ => exact .inl ⟨.inr (Term.bool?_eq_some_iff.mp known), rfl⟩
  · next known _ => exact .inr (.inl ⟨Term.bool?_eq_some_iff.mp known, rfl⟩)
  · next known _ _ => exact .inr (.inr ⟨Term.bool?_eq_some_iff.mp known, rfl⟩)

@[simp]
theorem disjunction_truth_left (b : Term) : disjunction .truth b = some .truth := rfl

@[simp]
theorem disjunction_truth_right (a : Term) : disjunction a .truth = some .truth := by
  rcases known : a.bool? with _ | _ | _ <;> simp [disjunction, Term.truth, known]

@[simp]
theorem disjunction_falsity_left (b : Term) : disjunction .falsity b = some b := by
  rcases known : b.bool? with _ | _ | _ <;> simp [disjunction, Term.falsity, known]
  exact (Term.bool?_eq_some_iff.mp known).symm

@[simp]
theorem disjunction_falsity_right (a : Term) : disjunction a .falsity = some a := by
  rcases known : a.bool? with _ | _ | _
  · simp [disjunction, Term.falsity, known]
  · simp [disjunction, Term.bool?_eq_some_iff.mp known, Term.falsity]
  · simp [disjunction, Term.bool?_eq_some_iff.mp known, Term.truth]

theorem disjunction_eq_some (made : disjunction a b = some result) :
    (a = .truth ∨ b = .truth) ∧ result = .truth ∨ a = .falsity ∧ result = b ∨
      b = .falsity ∧ result = a := by
  unfold disjunction at made
  split at made <;> cases made
  · next known => exact .inl ⟨.inl (Term.bool?_eq_some_iff.mp known), rfl⟩
  · next known _ => exact .inl ⟨.inr (Term.bool?_eq_some_iff.mp known), rfl⟩
  · next known _ => exact .inr (.inl ⟨Term.bool?_eq_some_iff.mp known, rfl⟩)
  · next known _ _ => exact .inr (.inr ⟨Term.bool?_eq_some_iff.mp known, rfl⟩)

@[simp]
theorem implication_falsity (b : Term) : implication .falsity b = some .truth := rfl

@[simp]
theorem implication_of_truth (a : Term) : implication a .truth = some .truth := by
  rcases known : a.bool? with _ | _ | _ <;> simp [implication, Term.truth, known]

@[simp]
theorem implication_truth (b : Term) : implication .truth b = some b := by
  rcases known : b.bool? with _ | _ | _ <;> simp [implication, Term.truth, known]
  exact (Term.bool?_eq_some_iff.mp known).symm

theorem implication_eq_some (made : implication a b = some result) :
    (a = .falsity ∨ b = .truth) ∧ result = .truth ∨ a = .truth ∧ result = b := by
  unfold implication at made
  split at made <;> cases made
  · next known => exact .inl ⟨.inl (Term.bool?_eq_some_iff.mp known), rfl⟩
  · next known _ => exact .inl ⟨.inr (Term.bool?_eq_some_iff.mp known), rfl⟩
  · next known _ => exact .inr ⟨Term.bool?_eq_some_iff.mp known, rfl⟩

end Connectives

theorem result_member (made : member kind key container = some result) : Result args result := by
  obtain ⟨_, _, _, ⟨_, rfl⟩ | ⟨_, _, rfl⟩⟩ := member_eq_some made
  · exact .bool true
  · exact .bool false

theorem result_count (made : count kind container = some result) : Result args result := by
  obtain ⟨entries, _, _, rfl⟩ := count_eq_some made
  exact .int entries.length

private theorem result_lookup (made : lookup container key = some result) :
    Result [container, key] result := by
  obtain ⟨⟨entries, frame⟩, shape, rest⟩ := Option.bind_eq_some_iff.mp made
  obtain rfl := collection?_eq_some shape
  dsimp only at rest
  split at rest
  · next found =>
    cases rest
    have member := List.mem_of_getElem? (getElem?_of_locate found)
    exact .part List.mem_cons_self member (by simp [Entry.parts])
  · next found =>
    cases rest
    have member := List.mem_of_getElem? (getElem?_of_locate found)
    exact .part List.mem_cons_self member (by simp [Entry.parts])
  · cases rest

private theorem result_remove (made : remove container key = some result) :
    Result [container, key] result := by
  obtain ⟨⟨entries, frame⟩, shape, rest⟩ := Option.bind_eq_some_iff.mp made
  obtain rfl := collection?_eq_some shape
  obtain ⟨kept, left, whole⟩ := Option.bind_eq_some_iff.mp rest
  cases whole
  exact .rebuilt (List.mem_cons_self : Term.collection _ entries _ ∈ _) fun entry member =>
    .inl ((without_sublist left).subset member)

private theorem result_update (made : update container key value = some result) :
    Result [container, key, value] result := by
  obtain ⟨⟨entries, frame⟩, shape, rest⟩ := Option.bind_eq_some_iff.mp made
  obtain rfl := collection?_eq_some shape
  obtain ⟨kept, left, whole⟩ := Option.bind_eq_some_iff.mp rest
  cases whole
  refine .rebuilt (List.mem_cons_self : Term.collection _ entries _ ∈ _) fun entry member => ?_
  rcases List.mem_append.mp member with member | member
  · exact .inl ((without_sublist left).subset member)
  · obtain rfl := List.mem_singleton.mp member
    exact .inr (by simp [Entry.parts])

theorem result_onBoth {α : Type} {read : Term → Option α} {op : α → α → Option Term}
    (results : ∀ x y term, op x y = some term → Result args term)
    (made : onBoth read op a b = some result) : Result args result := by
  obtain ⟨x, y, _, _, made⟩ := onBoth_eq_some made
  exact results x y result made

/-- All that a hook can do. -/
theorem result_of_apply {hook : Hook} (made : hook.apply args = some result) :
    Result args result := by
  unfold apply at made
  split at made
  · exact result_onBoth (fun x y term same => by cases same; exact .int _) made
  · exact result_onBoth (fun x y term same => by cases same; exact .int _) made
  · exact result_onBoth (fun x y term same => by cases same; exact .int _) made
  · refine result_onBoth (fun x y term same => ?_) made
    split at same <;> cases same
    exact .int _
  · refine result_onBoth (fun x y term same => ?_) made
    split at same <;> cases same
    exact .int _
  · exact result_onBoth (fun x y term same => by cases same; exact .int _) made
  · exact result_onBoth (fun x y term same => by cases same; exact .int _) made
  · obtain ⟨x, _, rfl⟩ := Option.map_eq_some_iff.mp made
    exact .int _
  · exact result_onBoth (fun x y term same => by cases same; exact .bool _) made
  · obtain ⟨x, _, rfl⟩ := Option.map_eq_some_iff.mp made
    exact .bool _
  · rcases conjunction_eq_some made with ⟨_, rfl⟩ | ⟨_, rfl⟩ | ⟨_, rfl⟩
    · exact .bool false
    · exact .arg (by simp)
    · exact .arg (by simp)
  · rcases disjunction_eq_some made with ⟨_, rfl⟩ | ⟨_, rfl⟩ | ⟨_, rfl⟩
    · exact .bool true
    · exact .arg (by simp)
    · exact .arg (by simp)
  · rcases implication_eq_some made with ⟨_, rfl⟩ | ⟨_, rfl⟩
    · exact .bool true
    · exact .arg (by simp)
  · exact result_onBoth (fun x y term same => by cases same; exact .bool _) made
  · exact result_onBoth (fun x y term same => by cases same; exact .bool _) made
  · exact result_onBoth (fun x y term same => by cases same; exact .string _) made
  · obtain ⟨x, _, rfl⟩ := Option.map_eq_some_iff.mp made
    exact .int _
  · exact result_onBoth (fun x y term same => by cases same; exact .bool _) made
  · obtain ⟨_, _, rfl⟩ := onGround_eq_some made
    exact .bool _
  · obtain ⟨_, _, rfl⟩ := onGround_eq_some made
    exact .bool _
  · exact result_lookup made
  · exact result_update made
  · exact result_remove made
  · exact result_member made
  · exact result_count made
  · exact result_member made
  · exact result_count made
  · exact result_count made
  · obtain ⟨x, _, rfl⟩ := Option.map_eq_some_iff.mp made
    exact .string _
  · cases made

namespace Result

theorem canonical (made : Result args result) (parts : ∀ arg ∈ args, arg.Canonical) :
    result.Canonical := by
  cases made with
  | bool value => exact .token _ _
  | int value => exact .token _ _
  | string value => exact .token _ _
  | arg given => exact parts result given
  | part given member inside => exact (parts _ given).of_entry _ member result inside
  | rebuilt given kept =>
    refine .normalized (fun entry member part inside => ?_) (parts _ given).of_frame
    rcases kept entry member with old | new
    · exact (parts _ given).of_entry entry old part inside
    · exact parts part (new part inside)

/-- A property of subterms passes to the result, if it holds of the tokens and of the collections
that can arise. -/
theorem everywhere {holds : Term → Prop} (made : Result args result)
    (parts : ∀ arg ∈ args, Term.Everywhere holds arg) (bool : ∀ value, holds (.ofBool value))
    (int : ∀ value, holds (.ofInt value)) (string : ∀ value, holds (.ofString value))
    (collection : ∀ kind entries frame entries' frame', holds (.collection kind entries frame) →
      holds (.collection kind entries' frame')) : Term.Everywhere holds result := by
  cases made with
  | bool value => exact Term.Everywhere.token_iff.mpr (bool value)
  | int value => exact Term.Everywhere.token_iff.mpr (int value)
  | string value => exact Term.Everywhere.token_iff.mpr (string value)
  | arg given => exact parts result given
  | part given member inside =>
    exact (Term.Everywhere.collection_iff.mp (parts _ given)).2.1 _ member result inside
  | rebuilt given kept =>
    obtain ⟨here, inner, last⟩ := Term.Everywhere.collection_iff.mp (parts _ given)
    refine .normalized (fun entry member part inside => ?_) last fun _ _ => collection _ _ _ _ _ here
    rcases kept entry member with old | new
    · exact inner entry old part inside
    · exact parts part (new part inside)

end Result

end Hook

namespace Signature

variable {sig : Signature} {label : String} {args : List Term} {result term : Term}

theorem result_of_callHook (made : sig.callHook label args = some result) :
    Hook.Result args result := by
  obtain ⟨name, _, made⟩ := Option.bind_eq_some_iff.mp made
  obtain ⟨hook, _, made⟩ := Option.bind_eq_some_iff.mp made
  exact Hook.result_of_apply made

theorem normalizing_builtinAlgebra (sig : Signature) : sig.builtinAlgebra.Normalizing where
  var := .var
  app label sort args canonical := by
    cases called : sig.callHook label args with
    | none => simpa [builtinAlgebra, called] using Term.Canonical.app label sort canonical
    | some result =>
      simpa [builtinAlgebra, called] using (result_of_callHook called).canonical canonical
  token := .token
  collection := rfl

theorem canonical_evalBuiltins (sig : Signature) (term : Term) :
    (sig.evalBuiltins term).Canonical :=
  sig.normalizing_builtinAlgebra.canonical term

/-- Evaluation under an assignment of the variables. -/
def valuation (sig : Signature) (s : Subst) : Term.Algebra Term :=
  sig.builtinAlgebra.after s

theorem normalizing_valuation (sig : Signature) (s : Subst) : (sig.valuation s).Normalizing :=
  sig.normalizing_builtinAlgebra.after s

/-- Evaluating an instance is one fold of the term. -/
theorem evalBuiltins_apply (sig : Signature) (s : Subst) (term : Term) :
    sig.evalBuiltins (s.apply term) = term.fold (sig.valuation s) :=
  sig.normalizing_builtinAlgebra.fold_apply s term

/-- The value of a term depends on the variables that occur in it. -/
theorem fold_valuation_congr {sig : Signature} {s s' : Subst} {term : Term}
    (same : ∀ v ∈ term.vars, s'.image v = s.image v) :
    term.fold (sig.valuation s') = term.fold (sig.valuation s) :=
  @Term.fold_congr _ (sig.valuation s') (sig.valuation s).var term fun v occurs =>
    congrArg sig.evalBuiltins (same v occurs)

end Signature

end Reach
