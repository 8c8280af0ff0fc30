import Reach.Proofs.Accounting
import Reach.Proofs.Composition
import Reach.Proofs.Correspondence
import Reach.Proofs.Renaming

/-!
Renaming a rule apart can be undone. Every variable of the rule goes to one of its sort that no other
goes to, wherever it stands, so that turning the renaming around leads back. A counter draws no name of
the rule if it is past every number that a name of the rule ends in.
-/

namespace Reach

namespace Assoc

variable {κ α : Type} [DecidableEq κ] {pairs : List (κ × α)} {key : κ} {value : α}

private theorem get?_insertAll_of_not_mem (absent : key ∉ pairs.map Prod.fst) (map : Assoc κ α) :
    (pairs.foldl (fun map entry => map.insert entry.1 entry.2) map).get? key = map.get? key := by
  induction pairs generalizing map with
  | nil => rfl
  | cons first rest ih =>
    rw [List.map_cons, List.mem_cons, not_or] at absent
    rw [List.foldl_cons, ih absent.2, get?_insert, if_neg absent.1]

/-- Where no key repeats, each one has the value that is listed with it. -/
theorem get?_ofList_of_mem (distinct : (pairs.map Prod.fst).Nodup) (member : (key, value) ∈ pairs) :
    (ofList pairs).get? key = some value := by
  unfold ofList
  generalize (empty : Assoc κ α) = map
  induction pairs generalizing map with
  | nil => cases member
  | cons first rest ih =>
    obtain ⟨absent, distinct⟩ := List.nodup_cons.mp distinct
    rw [List.foldl_cons]
    rcases List.mem_cons.mp member with rfl | later
    · rw [get?_insertAll_of_not_mem absent, get?_insert, if_pos rfl]
    · exact ih distinct later _

private theorem keys_insert_of_not_mem {map : Assoc κ α} (absent : key ∉ map.keys) (value : α) :
    (map.insert key value).keys = map.keys ++ [key] :=
  (keys_put key value map.entries).trans (if_neg absent)

end Assoc

namespace Subst

/-- A binding to a variable, turned around. -/
def turned : Variable × Term → Option (Variable × Term)
  | (v, .var w) => some (w, .var v)
  | _ => none

/-- The variables that variables are bound to, bound to these. -/
def inverse (s : Subst) : Subst :=
  .ofList (s.entries.filterMap turned)

variable {s : Subst} {v w : Variable} {term : Term}

theorem of_turned {entry image : Variable × Term} (made : turned entry = some image) :
    entry.2 = .var image.1 := by
  obtain ⟨v, term⟩ := entry
  cases term with
  | var w =>
    cases made
    rfl
  | _ => cases made

/-- A renaming binds variables to variables of their sort, and no two of them to the same. -/
theorem isRenaming_iff : s.isRenaming = true ↔
    (∀ v term, s.get? v = some term → ∃ w, term = .var w ∧ w.sort = v.sort) ∧
      ∀ v w term, s.get? v = some term → s.get? w = some term → v = w := by
  rw [isRenaming, Bool.and_eq_true, decide_eq_true_iff, List.all_eq_true]
  refine and_congr ⟨fun each v term bound => ?_, fun each entry member => ?_⟩
    ⟨fun distinct v w term first second => ?_, fun apart => ?_⟩
  · have sorted := each _ (Assoc.get?_eq_some_iff.mp bound)
    cases term with
    | var w => exact ⟨w, rfl, by simpa using sorted⟩
    | _ => cases sorted
  · obtain ⟨v, term⟩ := entry
    obtain ⟨w, rfl, sort⟩ := each v term (Assoc.get?_eq_some_iff.mpr member)
    simpa using sort
  · exact congrArg Prod.fst (List.inj_on_of_nodup_map distinct (Assoc.get?_eq_some_iff.mp first)
      (Assoc.get?_eq_some_iff.mp second) rfl)
  · refine List.Nodup.map_on (fun first member second member' same => ?_) (.of_map _ s.distinct)
    obtain ⟨v, term⟩ := first
    obtain ⟨w, term'⟩ := second
    obtain rfl : term = term' := same
    rw [apart v w term (Assoc.get?_eq_some_iff.mpr member) (Assoc.get?_eq_some_iff.mpr member')]

section Inverse

variable (renames : s.isRenaming = true)
include renames

theorem get?_inverse (bound : s.get? v = some (.var w)) : s.inverse.get? w = some (.var v) := by
  have apart : s.entries.Pairwise fun first second => first.2 ≠ second.2 := by
    rw [isRenaming, Bool.and_eq_true, decide_eq_true_iff] at renames
    exact List.pairwise_map.mp renames.2
  refine Assoc.get?_ofList_of_mem (List.pairwise_map.mpr (apart.filterMap _ ?_))
    (List.mem_filterMap.mpr ⟨(v, .var w), Assoc.get?_eq_some_iff.mp bound, rfl⟩)
  intro first second differ image made image' made' same
  exact differ (by rw [of_turned made, of_turned made', same])

/-- Turning a renaming around leads every term back whose variables were all renamed. -/
theorem apply_inverse (canonical : term.Canonical) (bound : ∀ v ∈ term.vars, v ∈ s.keys) :
    s.inverse.apply (s.apply term) = term := by
  rw [← apply_compose_eq canonical s s.inverse]
  refine apply_eq_self canonical fun v occurs => ?_
  obtain ⟨image, found⟩ := Option.isSome_iff_exists.mp (Assoc.isSome_get?_iff.mpr (bound v occurs))
  obtain ⟨w, rfl, _⟩ := (isRenaming_iff.mp renames).1 v image found
  rw [image_compose, image_of_get? found, apply_var_eq, image_of_get? (get?_inverse renames found)]

end Inverse

end Subst

namespace Fresh

/-- The number that a name ends in, if there are digits and nothing else after its last mark. -/
def suffix? (name : String) : Option Nat :=
  let digits := (name.toList.reverse.takeWhile Char.isDigit).reverse
  match name.toList.reverse.dropWhile Char.isDigit with
  | '#' :: _ => if digits.isEmpty then none else some (Nat.ofDigitChars 10 digits 0)
  | _ => none

private theorem suffix?_numbered (stem : String) (number : Nat) :
    suffix? (numbered stem number) = some number := by
  have digits : ∀ c ∈ (Nat.toDigits 10 number).reverse, c.isDigit = true := fun c member =>
    Nat.isDigit_of_mem_toDigits (by decide) (by decide) (List.mem_reverse.mp member)
  have spelled : (numbered stem number).toList.reverse =
      (Nat.toDigits 10 number).reverse ++ '#' :: stem.toList.reverse := by
    simp [numbered, Nat.repr_eq_ofList_toDigits]
  have mark : '#'.isDigit = false := by decide
  have filled : Nat.toDigits 10 number ≠ [] := Nat.toDigits_ne_nil
  simp only [suffix?, spelled, List.takeWhile_append_of_pos digits, List.dropWhile_append_of_pos digits,
    List.takeWhile_cons, List.dropWhile_cons, mark, List.append_nil, List.reverse_reverse,
    Bool.false_eq_true, if_false]
  rw [if_neg (mt List.isEmpty_iff.mp filled), Nat.ofDigitChars_ten_toDigits]

/-- A counter draws no name that ends in a number that it is past. -/
theorem avoids_of_suffix? {fresh : Fresh} {v : Variable}
    (past : ∀ number ∈ suffix? v.name, number < fresh.position) : fresh.Avoids v := by
  intro stem number reached same
  have below := past number (by rw [same, suffix?_numbered]; rfl)
  omega

end Fresh

namespace Rule

variable {rule : Rule} {s : Subst} {fresh : Fresh} {v : Variable}

/-- The terms that stand in a rule. -/
def terms (rule : Rule) : List Term :=
  [rule.lhs, rule.rhs, rule.requires, rule.ensures] ++
    rule.lookups.flatMap fun lookup => [lookup.pattern, lookup.expr]

/-- The variable stands in a term of the rule, or is declared to be fresh. -/
def Occurs (rule : Rule) (v : Variable) : Prop :=
  (∃ term ∈ rule.terms, v ∈ term.vars) ∨ v ∈ rule.freshConstants ∨ v ∈ rule.freshVariables

theorem mem_allVars_iff : v ∈ rule.allVars ↔ rule.Occurs v := by
  simp only [allVars, Occurs, terms, List.mem_eraseDups, List.mem_append, List.mem_flatMap,
    List.mem_cons, List.not_mem_nil, or_false]
  constructor
  · rintro ((((((lhs | ⟨lookup, listed, occurs⟩) | requires) | rhs) | ensures) | constant) | symbol)
    · exact .inl ⟨_, .inl (.inl rfl), lhs⟩
    · rcases occurs with expr | pattern
      · exact .inl ⟨_, .inr ⟨lookup, listed, .inr rfl⟩, expr⟩
      · exact .inl ⟨_, .inr ⟨lookup, listed, .inl rfl⟩, pattern⟩
    · exact .inl ⟨_, .inl (.inr (.inr (.inl rfl))), requires⟩
    · exact .inl ⟨_, .inl (.inr (.inl rfl)), rhs⟩
    · exact .inl ⟨_, .inl (.inr (.inr (.inr rfl))), ensures⟩
    · exact .inr (.inl constant)
    · exact .inr (.inr symbol)
  · rintro (⟨term, (rfl | rfl | rfl | rfl) | ⟨lookup, listed, within⟩, occurs⟩ | constant | symbol)
    case inl.inr =>
      have inside : v ∈ lookup.expr.vars ∨ v ∈ lookup.pattern.vars := by
        rcases within with rfl | rfl
        · exact .inr occurs
        · exact .inl occurs
      exact .inl (.inl (.inl (.inl (.inl (.inr ⟨lookup, listed, inside⟩)))))
    all_goals tauto

private theorem keys_renameOnto {vars : List Variable} (distinct : vars.Nodup) (s : Subst) (fresh : Fresh)
    (absent : ∀ v ∈ vars, v ∉ s.keys) : (renameOnto vars (s, fresh)).1.keys = s.keys ++ vars := by
  induction vars generalizing s fresh with
  | nil => exact (List.append_nil _).symm
  | cons first rest ih =>
    obtain ⟨new, distinct⟩ := List.nodup_cons.mp distinct
    obtain ⟨here, later⟩ := List.forall_mem_cons.mp absent
    have added := Assoc.keys_insert_of_not_mem here (Term.var (fresh.variableLike first).1)
    rw [renameOnto_cons, ih distinct, added, List.append_assoc, List.singleton_append]
    intro v member
    rw [added, List.mem_append, List.mem_singleton, not_or]
    exact ⟨later v member, fun same => new (same ▸ member)⟩

theorem Renames.isRenaming {vars : List Variable} {first last : Fresh} (renames : Renames s vars first last) :
    s.isRenaming = true := by
  have listed {v : Variable} {term : Term} (bound : s.get? v = some term) : v ∈ vars := by
    by_contra absent
    cases bound.symm.trans (renames.free v absent)
  refine Subst.isRenaming_iff.mpr ⟨fun v term bound => ?_, fun v w term first second => ?_⟩
  · obtain ⟨w, found, sort, _⟩ := renames.bound v (listed bound)
    exact ⟨w, Option.some.inj (bound.symm.trans found), sort⟩
  · exact renames.injective v (listed first) w (listed second) (first.trans second.symm)

/-- A rule whose variables are all renamed is led back by the renaming turned around. -/
theorem substitute_inverse (renames : s.isRenaming = true)
    (canonical : ∀ term ∈ rule.terms, term.Canonical) (covers : ∀ v, rule.Occurs v → v ∈ s.keys) :
    (rule.substitute s).substitute s.inverse = rule := by
  have back (term : Term) (member : term ∈ rule.terms) : s.inverse.apply (s.apply term) = term :=
    Subst.apply_inverse renames (canonical term member) fun v occurs =>
      covers v (.inl ⟨term, member, occurs⟩)
  have declared (v : Variable) (occurs : rule.Occurs v) :
      renameFresh s.inverse (renameFresh s v) = v := by
    obtain ⟨image, found⟩ := Option.isSome_iff_exists.mp (Assoc.isSome_get?_iff.mpr (covers v occurs))
    obtain ⟨w, rfl, _⟩ := (Subst.isRenaming_iff.mp renames).1 v image found
    have there : renameFresh s v = w := by rw [renameFresh, found]
    rw [there, renameFresh, Subst.get?_inverse renames found]
  have names (vars : List Variable) (occur : ∀ v ∈ vars, rule.Occurs v) :
      (vars.map (renameFresh s)).map (renameFresh s.inverse) = vars := by
    rw [List.map_map]
    exact (List.map_congr_left fun v member => declared v (occur v member)).trans (List.map_id vars)
  have looked : (rule.lookups.map fun lookup =>
      ({ pattern := s.inverse.apply (s.apply lookup.pattern),
         expr := s.inverse.apply (s.apply lookup.expr) } : Lookup)) = rule.lookups := by
    refine (List.map_congr_left fun lookup listed => ?_).trans (List.map_id _)
    have inside {term : Term} (part : term ∈ [lookup.pattern, lookup.expr]) : term ∈ rule.terms :=
      List.mem_append_right _ (List.mem_flatMap.mpr ⟨lookup, listed, part⟩)
    rw [back _ (inside (by simp)), back _ (inside (by simp))]
    rfl
  simp only [substitute, List.map_map, Function.comp_def] at looked ⊢
  rw [back rule.lhs (by simp [terms]), back rule.rhs (by simp [terms]),
    back rule.requires (by simp [terms]), back rule.ensures (by simp [terms]), looked]
  have constants := names rule.freshConstants fun v member => .inr (.inl member)
  have symbols := names rule.freshVariables fun v member => .inr (.inr member)
  simp only [List.map_map, Function.comp_def] at constants symbols
  rw [constants, symbols]

/-- Renaming a rule apart is a reversible change of names: all of its variables go to distinct variables
of their sorts, none of which stands in the rule, and the renaming turned around gives the rule back. -/
theorem renameApart_reversible (canonical : ∀ term ∈ rule.terms, term.Canonical)
    (past : ∀ v, rule.Occurs v → ∀ number ∈ Fresh.suffix? v.name, number < fresh.position)
    (unwrapped : fresh.position + rule.allVars.length ≤ 2 ^ 64) :
    ∃ s : Subst, (rule.renameApart fresh).1 = rule.substitute s ∧ s.isRenaming = true ∧
      s.keys = rule.allVars ∧ (∀ v, v ∈ s.keys ↔ rule.Occurs v) ∧
      (∀ v, (rule.renameApart fresh).1.Occurs v → ¬rule.Occurs v) ∧
      (rule.renameApart fresh).2.position = fresh.position + s.keys.length ∧
      (rule.renameApart fresh).1.substitute s.inverse = rule := by
  have position : (rule.renameApart fresh).2.position = fresh.position + rule.allVars.length :=
    position_renameOnto rule.allVars .empty fresh
  have drawn : (rule.renameApart fresh).2.position ≤ 2 ^ 64 := position.trans_le unwrapped
  have renames := (rule.renames_renameApart fresh drawn).isRenaming
  have keys : (freshRenaming rule.allVars fresh).1.keys = rule.allVars :=
    keys_renameOnto (nodup_eraseDups _) .empty fresh fun _ _ => nofun
  have covers (v : Variable) : v ∈ (freshRenaming rule.allVars fresh).1.keys ↔ rule.Occurs v := by
    rw [keys, mem_allVars_iff]
  refine ⟨(freshRenaming rule.allVars fresh).1, rfl, renames, keys, covers, fun v renamed occurs => ?_,
    keys.symm ▸ position, substitute_inverse renames canonical fun v => (covers v).mpr⟩
  have between := between_of_mem_allVars (mem_allVars_iff.mpr renamed) drawn
  exact (Fresh.avoids_of_suffix? (past v occurs)).ne_of_between between rfl

/-- A job is taken out of a set of which not all is known, and is logged under a new name. The names of
two jobs differ in their numbers only. -/
def taking : Rule :=
  let job (name : String) := Term.var ⟨name, .int⟩
  let rest := Term.var ⟨"Rest", .set⟩
  { label := "taking"
    lhs := .app "pool" (.named "Pool")
      [job "J#10", .collection .set [.element (job "J#10"), .element (job "J#9")] (some rest)]
    rhs := .app "taken" (.named "Pool") [job "Log", job "Size", rest]
    requires := .app Label.intLt .bool [job "Size", .ofInt 8]
    freshVariables := [⟨"Log", .int⟩]
    lookups := [{ pattern := job "Size", expr := .app Label.setSize .int [rest] }] }

/-- The numbers of the two jobs change places in the order of names, and so do their entries. -/
theorem renameApart_reversible_taking : ∃ s : Subst, s.keys.map Variable.name =
      ["J#10", "J#9", "Rest", "Size", "Log"] ∧
    (taking.substitute s).lhs = .app "pool" (.named "Pool") [.var ⟨"J#99", .int⟩, .collection .set
      [.element (.var ⟨"J#100", .int⟩), .element (.var ⟨"J#99", .int⟩)] (some (.var ⟨"Rest#101", .set⟩))] ∧
    (taking.substitute s).substitute s.inverse = taking := by
  have arranged : ∀ term ∈ taking.terms, term.rename id = term := by decide +kernel
  have canonical : ∀ term ∈ taking.terms, term.Canonical := fun term member =>
    arranged term member ▸ Term.canonical_rename id term
  have past : ∀ v, taking.Occurs v → ∀ number ∈ Fresh.suffix? v.name, number < 99 := by
    simp only [← mem_allVars_iff]
    decide +kernel
  obtain ⟨s, renamed, _, keys, _, _, _, back⟩ :=
    @renameApart_reversible _ ⟨99⟩ canonical past (by decide +kernel)
  refine ⟨s, by rw [keys]; decide +kernel, ?_, renamed ▸ back⟩
  rw [← renamed]
  decide +kernel

end Rule

end Reach
