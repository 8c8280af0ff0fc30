import Reach.Proofs.Agreement
import Reach.Proofs.Dispatch

/-!
What a definition finds, compared with the list of rules that it was made of. The positions in the index
ascend, under each label and under none, so that merging them restores the order of the rules. The rules
that are looked up for a term or for a function are then those that a scan of the list selects, and no
rule is lost or filed twice.
-/

namespace Reach

section Labels

variable {sig : Signature} {label : String}

/-- The function labels, in order of declaration. -/
def Signature.functions (sig : Signature) : List String :=
  sig.labels.keys.filter sig.isFunction

theorem Signature.mem_functions : label ∈ sig.functions ↔ sig.isFunction label = true := by
  rw [functions, List.mem_filter]
  refine ⟨And.right, fun function => ⟨Assoc.isSome_get?_iff.mp ?_, function⟩⟩
  cases declared : sig.labels.get? label with
  | some decl => rfl
  | none => simp [isFunction, declared] at function

private theorem Signature.nodup_functions : sig.functions.Nodup :=
  sig.labels.distinct.filter _

private theorem Signature.isCall_iff {term : Term} :
    sig.isCall term = true ↔ ∃ label, term.label? = some label ∧ label ∈ sig.functions := by
  simp only [isCall, Option.any_eq_true, mem_functions]

end Labels

section Lists

/-- Two ascending lists are merged into one that is in order. -/
theorem Ordered.merge_eq_sort {first second : List Nat} (ascending : first.Pairwise (· ≤ ·))
    (ascending' : second.Pairwise (· ≤ ·)) : first.merge second = sort (first ++ second) := by
  have merged : (first.merge second).Pairwise (· ≤ ·) := by
    have result := @List.pairwise_merge Nat (fun a b => decide (a ≤ b))
      (by simpa using fun _ _ _ => Nat.le_trans) (by simpa using Nat.le_total) first second
      (by simpa using ascending) (by simpa using ascending')
    simpa only [decide_eq_true_eq] using result
  have sorted : (sort (first ++ second)).Pairwise (· ≤ ·) :=
    (sort_pairwise _).imp Nat.isLE_compare.mp
  exact List.Perm.eq_of_pairwise (fun _ _ _ _ => Nat.le_antisymm) merged sorted
    ((List.merge_perm_append _).trans (sort_perm _).symm)

/-- Selecting by one key after the other selects what has one of the keys, each item as often as it
is there. -/
theorem flatMap_filter_perm {κ α : Type} [DecidableEq κ] {keys : List κ} (distinct : keys.Nodup)
    (key : α → Option κ) (items : List α) :
    (keys.flatMap fun k => items.filter fun item => key item = some k).Perm
      (items.filter fun item => ∃ k ∈ keys, key item = some k) := by
  induction keys with
  | nil => simp
  | cons k rest ih =>
    obtain ⟨absent, distinct⟩ := List.nodup_cons.mp distinct
    let selected := items.filter fun item => ∃ k' ∈ k :: rest, key item = some k'
    have here : (selected.filter fun item => key item = some k) =
        items.filter fun item => key item = some k := by
      rw [List.filter_filter]
      refine List.filter_congr fun item _ => ?_
      by_cases same : key item = some k <;> simp [same]
    have later : (selected.filter fun item => !decide (key item = some k)) =
        items.filter fun item => ∃ k' ∈ rest, key item = some k' := by
      rw [List.filter_filter]
      refine List.filter_congr fun item _ => ?_
      by_cases same : key item = some k
      · simp [same, absent]
      · simp [same]
    have parted := List.filter_append_perm (fun item => decide (key item = some k)) selected
    rw [here, later] at parted
    rw [List.flatMap_cons]
    exact ((ih distinct).append_left _).trans parted

end Lists

namespace Definition

variable {sig : Signature} {rules : List Rule} {d : Definition}

/-- The semantic rules for a term, by a scan of all rules. -/
def scan (sig : Signature) (rules : List Rule) (term : Term) : List Rule :=
  rules.filter fun rule => applicable term rule && !sig.isCall rule.lhs

/-- The positions that are filed for a term: those under its outermost label and those under no label,
merged. -/
def positions (d : Definition) (term : Term) : List Nat :=
  ((term.label?.bind d.index.get?).getD []).merge d.unindexed

/-- Both lists of positions ascend, so that merging them puts all in order. -/
theorem Indexed.positions_eq_sort (indexed : d.Indexed) (term : Term) :
    d.positions term = Ordered.sort ((term.label?.bind d.index.get?).getD [] ++ d.unindexed) := by
  have labelled : ((term.label?.bind d.index.get?).getD []).Pairwise (· ≤ ·) := by
    cases term.label? with
    | none => exact .nil
    | some label =>
      rw [Option.bind_some, indexed.labelled label]
      exact pairwise_scanned _ _
  have unlabelled : d.unindexed.Pairwise (· ≤ ·) := by
    rw [indexed.unlabelled]
    exact pairwise_scanned _ _
  exact Ordered.merge_eq_sort labelled unlabelled

/-- Every position that is filed for a term is that of a rule. -/
theorem Indexed.map_positions (indexed : d.Indexed) (term : Term) :
    (d.positions term).map (d.rules[·]?) = (d.rules.filter (applicable term)).map some := by
  rw [indexed.positions_eq_sort, indexed.sort_positions, map_getElem?_scanned]

theorem Parted.filter_applicable (parted : d.Parted sig rules) (term : Term) :
    d.rules.filter (applicable term) = scan sig rules term := by
  rw [parted.semantic, List.filter_filter, scan]

/-- The rules of all functions are those headed by a function. -/
theorem Parted.flatMap_functionRules_perm (parted : d.Parted sig rules) :
    (sig.functions.flatMap d.functionRules).Perm (rules.filter fun rule => sig.isCall rule.lhs) := by
  have defining : sig.functions.flatMap d.functionRules =
      sig.functions.flatMap fun label => rules.filter fun rule => rule.lhs.label? = some label := by
    refine List.flatMap_congr fun label member => ?_
    rw [parted.functions, scanFunction, if_pos (Signature.mem_functions.mp member)]
  have called : (rules.filter fun rule => ∃ label ∈ sig.functions, rule.lhs.label? = some label) =
      rules.filter fun rule => sig.isCall rule.lhs := by
    refine List.filter_congr fun rule _ => ?_
    rw [Bool.eq_iff_iff, decide_eq_true_eq, Signature.isCall_iff]
    exact exists_congr fun label => and_comm
  rw [defining, ← called]
  exact flatMap_filter_perm Signature.nodup_functions _ rules

theorem Parted.perm (parted : d.Parted sig rules) :
    (d.rules ++ sig.functions.flatMap d.functionRules).Perm rules := by
  rw [parted.semantic]
  refine (parted.flatMap_functionRules_perm.append_left _).trans ?_
  exact List.perm_append_comm.trans (List.filter_append_perm (fun rule => sig.isCall rule.lhs) rules)

/-- Looking rules up is scanning the rules that the definition was made of. The positions filed for a
term are those of the rules not headed by a function that have the head of the term or none, in their
order, and these rules are its candidates. A function has the rules headed by it, in their order, and no
other label has any. The semantic rules and the rules of all functions are the given rules, each as
often as it was given. -/
theorem index_exact (made : ofRules sig rules = .ok d) :
    (∀ term, (d.positions term).map (d.rules[·]?) = (scan sig rules term).map some ∧
        d.candidates term = scan sig rules term) ∧
      (∀ label, d.functionRules label = scanFunction sig rules label) ∧
      (d.rules ++ sig.functions.flatMap d.functionRules).Perm rules := by
  obtain ⟨indexed, _⟩ := indexed_of_ofRules made
  obtain ⟨parted, _⟩ := parted_of_ofRules made
  refine ⟨fun term => ⟨?_, ?_⟩, parted.functions, parted.perm⟩
  · rw [indexed.map_positions, parted.filter_applicable]
  · rw [indexed.candidates_eq, parted.filter_applicable]

/-- Rules for `a`, for anything, for the function `f` and for `b`, and the first one again. -/
def interleaved : List Rule :=
  let there : Rule := { label := "there", lhs := heading "a" "X", rhs := heading "b" "X" }
  [there,
    { label := "anywhere", lhs := .var ⟨"X", .named "S"⟩, rhs := heading "a" "Y" },
    { label := "compute", lhs := heading "f" "X", rhs := heading "a" "X" },
    { label := "back", lhs := heading "b" "X", rhs := heading "a" "X" },
    there]

/-- A term headed by `a` finds the rule for anything between the two for `a`. -/
theorem index_exact_interleaved : ∃ d, ofRules headings interleaved = .ok d ∧
    (d.candidates (heading "a" "Z")).map Rule.label = ["there", "anywhere", "there"] ∧
    (d.functionRules "f").map Rule.label = ["compute"] ∧ d.functionRules "a" = [] ∧
    (d.rules ++ headings.functions.flatMap d.functionRules).Perm interleaved := by
  have made : ofRules headings interleaved = .ok _ := rfl
  obtain ⟨looked, functions, whole⟩ := index_exact made
  refine ⟨_, made, ?_, ?_, ?_, whole⟩
  · rw [(looked (heading "a" "Z")).2]
    decide +kernel
  · rw [functions]
    decide +kernel
  · rw [functions]
    decide +kernel

end Definition

end Reach
