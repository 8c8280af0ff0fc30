import Std.Data.TreeSet

/-!
Finite sequences whose elements are computed on demand. The view of an enumeration is its list of
elements.
-/

namespace Reach

inductive Enumeration (α : Type)
  | nil
  | cons (head : α) (tail : Unit → Enumeration α)

namespace Enumeration

variable {α β κ : Type}

def single (item : α) : Enumeration α :=
  cons item fun _ => nil

def toList : Enumeration α → List α
  | nil => []
  | cons head tail => head :: (tail ()).toList

def ofList : List α → Enumeration α
  | [] => nil
  | head :: tail => cons head fun _ => ofList tail

def ofOption : Option α → Enumeration α
  | none => nil
  | some item => single item

/-- The second sequence is not looked at before the first is exhausted. -/
def append : Enumeration α → (Unit → Enumeration α) → Enumeration α
  | nil, later => later ()
  | cons head tail, later => cons head fun _ => (tail ()).append later

def map (f : α → β) : Enumeration α → Enumeration β
  | nil => nil
  | cons head tail => cons (f head) fun _ => (tail ()).map f

def filterMap (f : α → Option β) : Enumeration α → Enumeration β
  | nil => nil
  | cons head tail =>
    match f head with
    | none => (tail ()).filterMap f
    | some item => cons item fun _ => (tail ()).filterMap f

def flatMap (f : α → Enumeration β) : Enumeration α → Enumeration β
  | nil => nil
  | cons head tail => (f head).append fun _ => (tail ()).flatMap f

/-- Of the elements with one key only the first stays; keys in `seen` are taken already. -/
def distinctFrom [Ord κ] (key : α → κ) : Std.TreeSet κ → Enumeration α → Enumeration α
  | _, nil => nil
  | seen, cons head tail =>
    let mark := key head
    if seen.contains mark then (tail ()).distinctFrom key seen
    else cons head fun _ => (tail ()).distinctFrom key (seen.insert mark)
termination_by structural _ items => items

def distinctBy [Ord κ] (key : α → κ) (items : Enumeration α) : Enumeration α :=
  items.distinctFrom key ∅

/-- At most `count` elements from the front. -/
def take : Nat → Enumeration α → List α
  | 0, _ => []
  | _ + 1, nil => []
  | count + 1, cons head tail => head :: (tail ()).take count

/-- What is left after at most `count` elements. -/
def drop : Nat → Enumeration α → Enumeration α
  | 0, items => items
  | _ + 1, nil => nil
  | count + 1, cons _ tail => (tail ()).drop count

def head? : Enumeration α → Option α
  | nil => none
  | cons head _ => some head

section Views

@[simp]
theorem toList_nil : (nil : Enumeration α).toList = [] := rfl

@[simp]
theorem toList_cons (head : α) (tail : Unit → Enumeration α) :
    (cons head tail).toList = head :: (tail ()).toList := rfl

@[simp]
theorem toList_single (item : α) : (single item).toList = [item] := rfl

@[simp]
theorem toList_ofList (items : List α) : (ofList items).toList = items := by
  induction items with
  | nil => rfl
  | cons head tail ih => simp [ofList, ih]

@[simp]
theorem toList_append (items : Enumeration α) (later : Unit → Enumeration α) :
    (items.append later).toList = items.toList ++ (later ()).toList := by
  induction items with
  | nil => rfl
  | cons head tail ih => simp [append, ih]

@[simp]
theorem toList_map (f : α → β) (items : Enumeration α) :
    (items.map f).toList = items.toList.map f := by
  induction items with
  | nil => rfl
  | cons head tail ih => simp [map, ih]

@[simp]
theorem toList_filterMap (f : α → Option β) (items : Enumeration α) :
    (items.filterMap f).toList = items.toList.filterMap f := by
  induction items with
  | nil => rfl
  | cons head tail ih => cases made : f head <;> simp [filterMap, made, ih]

@[simp]
theorem toList_flatMap (f : α → Enumeration β) (items : Enumeration α) :
    (items.flatMap f).toList = items.toList.flatMap fun item => (f item).toList := by
  induction items with
  | nil => rfl
  | cons head tail ih => simp [flatMap, ih]

theorem distinctFrom_sublist [Ord κ] (key : α → κ) (seen : Std.TreeSet κ)
    (items : Enumeration α) : (items.distinctFrom key seen).toList.Sublist items.toList := by
  induction items generalizing seen with
  | nil => exact .slnil
  | cons head tail ih =>
    rw [distinctFrom]
    split
    · exact (ih () seen).cons head
    · exact (ih () _).cons_cons head

/-- The keys that stay are the keys that were there and not taken. -/
theorem mem_map_distinctFrom [Ord κ] [Std.TransOrd κ] [Std.LawfulEqOrd κ] {key : α → κ}
    {seen : Std.TreeSet κ} {items : Enumeration α} {mark : κ} :
    mark ∈ (items.distinctFrom key seen).toList.map key ↔
      mark ∈ items.toList.map key ∧ mark ∉ seen := by
  induction items generalizing seen with
  | nil => simp [distinctFrom]
  | cons head tail ih =>
    rw [distinctFrom]
    split
    · next taken =>
      rw [ih, toList_cons, List.map_cons, List.mem_cons]
      grind
    · next new =>
      rw [toList_cons, List.map_cons, List.mem_cons, ih, toList_cons, List.map_cons, List.mem_cons,
        Std.TreeSet.mem_insert, Std.LawfulEqOrd.compare_eq_iff_eq]
      grind

theorem nodup_map_distinctFrom [Ord κ] [Std.TransOrd κ] [Std.LawfulEqOrd κ] (key : α → κ)
    (seen : Std.TreeSet κ) (items : Enumeration α) :
    ((items.distinctFrom key seen).toList.map key).Nodup := by
  induction items generalizing seen with
  | nil => simp [distinctFrom]
  | cons head tail ih =>
    rw [distinctFrom]
    split
    · exact ih () seen
    · rw [toList_cons, List.map_cons, List.nodup_cons, mem_map_distinctFrom]
      exact ⟨by simp, ih () _⟩

@[simp]
theorem take_eq (count : Nat) (items : Enumeration α) :
    items.take count = items.toList.take count := by
  induction count generalizing items with
  | zero => rfl
  | succ count ih => cases items <;> simp [take, ih]

@[simp]
theorem toList_drop (count : Nat) (items : Enumeration α) :
    (items.drop count).toList = items.toList.drop count := by
  induction count generalizing items with
  | zero => rfl
  | succ count ih => cases items <;> simp [drop, ih]

@[simp]
theorem head?_eq (items : Enumeration α) : items.head? = items.toList.head? := by
  cases items <;> rfl

end Views

end Enumeration

end Reach
