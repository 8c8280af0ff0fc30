import Reach.Ordered
import Reach.Term.Basic

/-!
What a term is made of: its sort, its head, its immediate subterms, and the quantities that look at
every node alike, namely variables, labels, size and groundness. A quantity of the last kind is
given by `Algebra.ofChildren` and unfolds along `children`.
-/

namespace Reach

/-- The sum of some numbers. -/
def total (numbers : List Nat) : Nat :=
  numbers.foldr Nat.add 0

@[simp]
theorem total_nil : total [] = 0 :=
  rfl

@[simp]
theorem total_cons (number : Nat) (rest : List Nat) : total (number :: rest) = number + total rest :=
  rfl

@[simp]
theorem total_append (first second : List Nat) :
    total (first ++ second) = total first + total second := by
  induction first with
  | nil => simp
  | cons number rest ih => rw [List.cons_append, total_cons, total_cons, ih, Nat.add_assoc]

end Reach

namespace Reach.Term

def sort : Term → TermSort
  | var v => v.sort
  | app _ sort _ => sort
  | token sort _ => sort
  | collection kind _ _ => kind.sort

/-- The outermost label of an application. -/
def label? : Term → Option String
  | app label _ _ => some label
  | _ => none

def var? : Term → Option Variable
  | var v => some v
  | _ => none

/-- The immediate subterms in order, the frame of a collection last. -/
def children : Term → List Term
  | var _ | token _ _ => []
  | app _ _ args => args
  | collection _ entries frame => entries.flatMap Entry.parts ++ frame.toList

/-- A fold that sees of an inner node only its label and what it made of the children. -/
def Algebra.ofChildren {β : Type} (onVar : Variable → β) (onNode : Option String → List β → β) :
    Algebra β where
  var := onVar
  app label _ args := onNode (some label) args
  token _ _ := onNode none []
  collection _ entries frame := onNode none (entries.flatMap Entry.parts ++ frame.toList)

theorem fold_ofChildren {β : Type} (onVar : Variable → β) (onNode : Option String → List β → β)
    {term : Term} (inner : term.var? = none) :
    term.fold (.ofChildren onVar onNode) =
      onNode term.label? (term.children.map (fold (.ofChildren onVar onNode))) := by
  cases term with
  | var v => cases inner
  | app label sort args => simp [Algebra.ofChildren, label?, children]
  | token sort value => simp [Algebra.ofChildren, label?, children]
  | collection kind entries frame =>
    cases frame <;> simp [Algebra.ofChildren, label?, children, List.map_flatMap, List.flatMap_map]

/-- The occurrences of variables, from left to right. -/
def vars : Term → List Variable :=
  fold (.ofChildren (fun v => [v]) fun _ parts => parts.flatten)

/-- The variables in order of first occurrence, each once. -/
def freeVars (term : Term) : List Variable :=
  term.vars.eraseDups

def mentions (v : Variable) : Term → Bool :=
  fold (.ofChildren (fun w => w == v) fun _ parts => parts.any id)

/-- Whether no variable occurs. -/
def ground : Term → Bool :=
  fold (.ofChildren (fun _ => false) fun _ parts => parts.all id)

/-- The number of nodes. -/
def size : Term → Nat :=
  fold (.ofChildren (fun _ => 1) fun _ parts => 1 + total parts)

/-- The occurrences of labels. -/
def labelOccurrences : Term → List String :=
  fold (.ofChildren (fun _ => []) fun label? parts => label?.toList ++ parts.flatten)

/-- The labels in order, each once. -/
def labels (term : Term) : List String :=
  Ordered.dropRepeats (Ordered.sort term.labelOccurrences)

section Equations

variable (v w : Variable) (label : String) (sort : TermSort) (args : List Term) (value : String)
  (kind : Kind) (entries : List (Entry Term)) (frame : Option Term)

@[simp]
theorem vars_var : (var v).vars = [v] := rfl

@[simp]
theorem vars_app : (app label sort args).vars = args.flatMap vars := by
  simp [vars, Algebra.ofChildren, List.flatMap_def]

@[simp]
theorem vars_token : (token sort value).vars = [] := rfl

@[simp]
theorem vars_collection :
    (collection kind entries frame).vars =
      entries.flatMap (fun entry => entry.parts.flatMap vars) ++ frame.toList.flatMap vars := by
  have inner : (collection kind entries frame).var? = none := rfl
  have unfolded : (collection kind entries frame).vars =
      (collection kind entries frame).children.flatMap vars := by
    rw [List.flatMap_def]
    exact fold_ofChildren _ _ inner
  rw [unfolded, children, List.flatMap_append, List.flatMap_assoc]

@[simp]
theorem ground_var : (var v).ground = false := rfl

@[simp]
theorem ground_app : (app label sort args).ground = args.all ground := by
  simp [ground, Algebra.ofChildren]

@[simp]
theorem ground_token : (token sort value).ground = true := rfl

@[simp]
theorem ground_collection :
    (collection kind entries frame).ground =
      (entries.all (fun entry => entry.parts.all ground) && frame.toList.all ground) := by
  have inner : (collection kind entries frame).var? = none := rfl
  rw [ground, fold_ofChildren _ _ inner]
  simp only [children, List.map_append, List.all_append, List.all_map, List.all_flatMap]
  rfl

@[simp]
theorem size_var : (var v).size = 1 := rfl

@[simp]
theorem size_app : (app label sort args).size = 1 + total (args.map size) := by
  simp [size, Algebra.ofChildren]

@[simp]
theorem size_token : (token sort value).size = 1 := rfl

theorem size_collection :
    (collection kind entries frame).size =
      1 + total ((entries.flatMap Entry.parts ++ frame.toList).map size) := by
  have inner : (collection kind entries frame).var? = none := rfl
  rw [size, fold_ofChildren _ _ inner]
  rfl

end Equations

theorem mem_vars_iff_mentions (v : Variable) (term : Term) :
    v ∈ term.vars ↔ term.mentions v = true := by
  induction term using induct with
  | var w =>
    simp only [vars_var, List.mem_singleton, mentions, fold_var, Algebra.ofChildren, beq_iff_eq]
    exact eq_comm
  | app label sort args ih =>
    simp only [vars_app, List.mem_flatMap, mentions, fold_app, Algebra.ofChildren]
    simp only [List.any_map, List.any_eq_true]
    exact exists_congr fun arg => and_congr_right fun member => ih arg member
  | token sort value => simp [mentions, Algebra.ofChildren]
  | collection kind entries frame ihEntries ihFrame =>
    have inner : (collection kind entries frame).var? = none := rfl
    rw [vars_collection, mentions, fold_ofChildren _ _ inner, children]
    simp only [List.mem_append, List.mem_flatMap, List.map_append, List.any_append, List.any_map,
      List.any_flatMap, Bool.or_eq_true, List.any_eq_true]
    refine or_congr ?_ ?_
    · exact exists_congr fun entry => and_congr_right fun member =>
        exists_congr fun part => and_congr_right fun inside => ihEntries entry member part inside
    · exact exists_congr fun rest => and_congr_right fun inside => ihFrame rest (by simpa using inside)

theorem ground_iff_vars_eq_nil (term : Term) : term.ground = true ↔ term.vars = [] := by
  induction term using induct with
  | var v => simp
  | app label sort args ih =>
    simp only [ground_app, List.all_eq_true, vars_app, List.flatMap_eq_nil_iff]
    exact forall_congr' fun arg => imp_congr_right fun member => ih arg member
  | token sort value => simp
  | collection kind entries frame ihEntries ihFrame =>
    simp only [ground_collection, Bool.and_eq_true, List.all_eq_true, vars_collection,
      List.append_eq_nil_iff, List.flatMap_eq_nil_iff]
    refine and_congr ?_ ?_
    · exact forall_congr' fun entry => imp_congr_right fun member =>
        forall_congr' fun part => imp_congr_right fun inside => ihEntries entry member part inside
    · exact forall_congr' fun rest => imp_congr_right fun inside =>
        ihFrame rest (by simpa using inside)

theorem size_pos (term : Term) : 0 < term.size := by
  cases term with
  | var v => exact Nat.one_pos
  | app label sort args =>
    rw [size_app]
    exact Nat.le_add_right 1 _
  | token sort value => exact Nat.one_pos
  | collection kind entries frame =>
    rw [size_collection]
    exact Nat.le_add_right 1 _

end Reach.Term
