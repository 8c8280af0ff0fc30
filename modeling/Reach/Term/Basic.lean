import Reach.Sort

/-!
Terms are variables, applications of a label, literal tokens and builtin collections. A collection
holds explicit entries and may have a frame, which stands for all the other entries. Functions on
terms are folds, so that each has one defining equation per constructor, and `Term.induct` is the
induction that goes with them.
-/

namespace Reach

/-- A variable ranges over the terms of its sort. -/
structure Variable where
  name : String
  sort : TermSort
  deriving DecidableEq

/-- An explicit entry of a collection: maps hold bindings, the other kinds hold elements. -/
inductive Entry (α : Type)
  | element (item : α)
  | binding (key value : α)
  deriving DecidableEq

inductive Term
  | var (v : Variable)
  | app (label : String) (sort : TermSort) (args : List Term)
  | token (sort : TermSort) (value : String)
  | collection (kind : Kind) (entries : List (Entry Term)) (frame : Option Term)

namespace Entry

variable {α β : Type}

/-- The parts of an entry, the key before the value. -/
def parts : Entry α → List α
  | element item => [item]
  | binding key value => [key, value]

def map (f : α → β) : Entry α → Entry β
  | element item => element (f item)
  | binding key value => binding (f key) (f value)

/-- The key of a binding, or the element itself. -/
def key : Entry α → α
  | element item => item
  | binding key _ => key

@[simp]
theorem parts_map (f : α → β) (entry : Entry α) : (entry.map f).parts = entry.parts.map f := by
  cases entry <;> rfl

@[simp]
theorem key_map (f : α → β) (entry : Entry α) : (entry.map f).key = f entry.key := by
  cases entry <;> rfl

theorem key_mem_parts (entry : Entry α) : entry.key ∈ entry.parts := by
  cases entry <;> simp [key, parts]

theorem map_congr {f g : α → β} {entry : Entry α} (same : ∀ part ∈ entry.parts, f part = g part) :
    entry.map f = entry.map g := by
  cases entry <;> simp_all [map, parts]

end Entry

namespace Term

/-- What a fold makes of each constructor, given what it made of the parts. -/
structure Algebra (β : Type) where
  var : Variable → β
  app : String → TermSort → List β → β
  token : TermSort → String → β
  collection : Kind → List (Entry β) → Option β → β

variable {β : Type}

mutual

/-- Bottom-up recursion over a term. -/
def fold (algebra : Algebra β) : Term → β
  | var v => algebra.var v
  | app label sort args => algebra.app label sort (foldArgs algebra args)
  | token sort value => algebra.token sort value
  | collection kind entries frame =>
    algebra.collection kind (foldEntries algebra entries) (foldFrame algebra frame)

def foldArgs (algebra : Algebra β) : List Term → List β
  | [] => []
  | arg :: rest => fold algebra arg :: foldArgs algebra rest

def foldEntries (algebra : Algebra β) : List (Entry Term) → List (Entry β)
  | [] => []
  | .element item :: rest => .element (fold algebra item) :: foldEntries algebra rest
  | .binding key value :: rest =>
    .binding (fold algebra key) (fold algebra value) :: foldEntries algebra rest

def foldFrame (algebra : Algebra β) : Option Term → Option β
  | none => none
  | some frame => some (fold algebra frame)

end

theorem foldArgs_eq_map (algebra : Algebra β) (args : List Term) :
    foldArgs algebra args = args.map (fold algebra) := by
  induction args with
  | nil => rfl
  | cons arg rest ih => simp [foldArgs, ih]

theorem foldEntries_eq_map (algebra : Algebra β) (entries : List (Entry Term)) :
    foldEntries algebra entries = entries.map (Entry.map (fold algebra)) := by
  induction entries with
  | nil => rfl
  | cons entry rest ih => cases entry <;> simp [foldEntries, Entry.map, ih]

theorem foldFrame_eq_map (algebra : Algebra β) (frame : Option Term) :
    foldFrame algebra frame = frame.map (fold algebra) := by
  cases frame <;> rfl

@[simp]
theorem fold_var (algebra : Algebra β) (v : Variable) : fold algebra (var v) = algebra.var v :=
  rfl

@[simp]
theorem fold_app (algebra : Algebra β) (label : String) (sort : TermSort) (args : List Term) :
    fold algebra (app label sort args) = algebra.app label sort (args.map (fold algebra)) := by
  rw [fold, foldArgs_eq_map]

@[simp]
theorem fold_token (algebra : Algebra β) (sort : TermSort) (value : String) :
    fold algebra (token sort value) = algebra.token sort value :=
  rfl

@[simp]
theorem fold_collection (algebra : Algebra β) (kind : Kind) (entries : List (Entry Term))
    (frame : Option Term) :
    fold algebra (collection kind entries frame) =
      algebra.collection kind (entries.map (Entry.map (fold algebra)))
        (frame.map (fold algebra)) := by
  rw [fold, foldEntries_eq_map, foldFrame_eq_map]

/-- What holds of a term whenever it holds of its parts holds of every term. -/
theorem induct {motive : Term → Prop} (var : ∀ v, motive (var v))
    (app : ∀ label sort args, (∀ arg ∈ args, motive arg) → motive (app label sort args))
    (token : ∀ sort value, motive (token sort value))
    (collection : ∀ kind entries frame, (∀ entry ∈ entries, ∀ part ∈ entry.parts, motive part) →
      (∀ rest ∈ frame, motive rest) → motive (collection kind entries frame))
    (term : Term) : motive term := by
  refine @Term.rec motive (fun args => ∀ arg ∈ args, motive arg)
    (fun entries => ∀ entry ∈ entries, ∀ part ∈ entry.parts, motive part)
    (fun frame => ∀ rest ∈ frame, motive rest) (fun entry => ∀ part ∈ entry.parts, motive part)
    var app token collection (by simp) (fun arg rest head tail => ?_) (by simp)
    (fun entry rest head tail => ?_) (by simp) (fun rest holds => ?_)
    (fun item holds => ?_) (fun key value holdsKey holdsValue => ?_) term
  · simpa using And.intro head tail
  · simpa using And.intro head tail
  · simpa using holds
  · simpa [Entry.parts] using holds
  · simpa [Entry.parts] using And.intro holdsKey holdsValue

end Term

end Reach
