/-!
Finite maps that remember the order in which their keys were first inserted. The view of a map is
`get?`; its keys never repeat.
-/

namespace Reach

structure Assoc (κ α : Type) where
  entries : List (κ × α)
  distinct : (entries.map Prod.fst).Nodup

namespace Assoc

variable {κ α β : Type}

@[ext]
theorem ext {first second : Assoc κ α} (same : first.entries = second.entries) :
    first = second := by
  cases first
  cases second
  cases same
  rfl

variable [DecidableEq κ]

/-- The value that stands with `key`. -/
def find (key : κ) : List (κ × α) → Option α
  | [] => none
  | (present, value) :: rest => if present = key then some value else find key rest

/-- Gives `key` a value in place if it is there, and at the end otherwise. -/
def put (key : κ) (value : α) : List (κ × α) → List (κ × α)
  | [] => [(key, value)]
  | (present, old) :: rest =>
    if present = key then (present, value) :: rest else (present, old) :: put key value rest

theorem keys_put (key : κ) (value : α) (entries : List (κ × α)) :
    (put key value entries).map Prod.fst =
      if key ∈ entries.map Prod.fst then entries.map Prod.fst
      else entries.map Prod.fst ++ [key] := by
  induction entries with
  | nil => simp [put]
  | cons entry rest ih =>
    obtain ⟨present, old⟩ := entry
    by_cases same : present = key
    · simp [put, same]
    · have other : key ≠ present := fun eq => same eq.symm
      simp only [put, same, ↓reduceIte, List.map_cons, ih, List.mem_cons, other, false_or]
      split <;> simp

theorem nodup_put (key : κ) (value : α) {entries : List (κ × α)}
    (distinct : (entries.map Prod.fst).Nodup) : ((put key value entries).map Prod.fst).Nodup := by
  rw [keys_put]
  split
  · exact distinct
  · next absent =>
    rw [List.nodup_append]
    refine ⟨distinct, by simp, fun present member other single => ?_⟩
    rintro rfl
    exact absent (by simpa [List.mem_singleton.mp single] using member)

def empty : Assoc κ α :=
  ⟨[], .nil⟩

def get? (map : Assoc κ α) (key : κ) : Option α :=
  find key map.entries

def contains (map : Assoc κ α) (key : κ) : Bool :=
  (map.get? key).isSome

/-- A key that is present keeps its position. -/
def insert (map : Assoc κ α) (key : κ) (value : α) : Assoc κ α :=
  ⟨put key value map.entries, nodup_put key value map.distinct⟩

/-- Keeps the bindings whose key satisfies `keep`. -/
def restrict (map : Assoc κ α) (keep : κ → Bool) : Assoc κ α :=
  ⟨map.entries.filter fun entry => keep entry.1,
    map.distinct.sublist (List.filter_sublist.map Prod.fst)⟩

def erase (map : Assoc κ α) (key : κ) : Assoc κ α :=
  map.restrict fun present => present ≠ key

def mapValues (f : α → β) (map : Assoc κ α) : Assoc κ β :=
  ⟨map.entries.map fun entry => (entry.1, f entry.2), by simpa [Function.comp_def] using map.distinct⟩

/-- A repeated key keeps its first position and takes its last value. -/
def ofList (entries : List (κ × α)) : Assoc κ α :=
  entries.foldl (fun map entry => map.insert entry.1 entry.2) empty

def keys (map : Assoc κ α) : List κ :=
  map.entries.map Prod.fst

def size (map : Assoc κ α) : Nat :=
  map.entries.length

def isEmpty (map : Assoc κ α) : Bool :=
  map.entries.isEmpty

/-- The same bindings, in whatever order. -/
def agrees [DecidableEq α] (first second : Assoc κ α) : Bool :=
  first.size == second.size &&
    first.entries.all fun entry => second.get? entry.1 == some entry.2

instance : EmptyCollection (Assoc κ α) :=
  ⟨empty⟩

instance [DecidableEq α] : DecidableEq (Assoc κ α) := fun first second =>
  decidable_of_iff (first.entries = second.entries) ⟨ext, congrArg entries⟩

@[simp]
theorem get?_empty (key : κ) : (empty : Assoc κ α).get? key = none :=
  rfl

theorem find_put (key other : κ) (value : α) (entries : List (κ × α)) :
    find other (put key value entries) = if other = key then some value else find other entries := by
  induction entries with
  | nil => simp [put, find, eq_comm]
  | cons entry rest ih =>
    obtain ⟨present, old⟩ := entry
    by_cases same : present = key <;> by_cases found : present = other <;> simp_all [put, find, eq_comm]

theorem get?_insert (map : Assoc κ α) (key other : κ) (value : α) :
    (map.insert key value).get? other = if other = key then some value else map.get? other :=
  find_put key other value map.entries

@[simp]
theorem get?_mapValues (f : α → β) (map : Assoc κ α) (key : κ) :
    (map.mapValues f).get? key = (map.get? key).map f := by
  simp only [get?, mapValues]
  induction map.entries with
  | nil => rfl
  | cons entry rest ih => by_cases same : entry.1 = key <;> simp_all [find]

theorem get?_restrict (map : Assoc κ α) (keep : κ → Bool) (key : κ) :
    (map.restrict keep).get? key = if keep key then map.get? key else none := by
  simp only [get?, restrict]
  induction map.entries with
  | nil => simp [find]
  | cons entry rest ih =>
    by_cases same : entry.1 = key <;> by_cases kept : keep entry.1 <;>
      simp_all [find]

end Assoc

end Reach
