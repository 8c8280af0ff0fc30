/-!
Lists kept in the order of their elements: insertion sort, and removal of repeats that stand side
by side, which in a sorted list are all the repeats.
-/

namespace Reach.Ordered

variable {α : Type}

/-- Puts `item` in front of the first element that is not smaller. -/
def insert [Ord α] (item : α) : List α → List α
  | [] => [item]
  | first :: rest =>
    if (compare item first).isLE then item :: first :: rest else first :: insert item rest

def sort [Ord α] : List α → List α
  | [] => []
  | first :: rest => insert first (sort rest)

/-- Of a run of equal elements only the first stays. -/
def dropRepeats [DecidableEq α] : List α → List α
  | [] => []
  | [item] => [item]
  | first :: second :: rest =>
    if first = second then dropRepeats (second :: rest) else first :: dropRepeats (second :: rest)

theorem insert_perm [Ord α] (item : α) (items : List α) : (insert item items).Perm (item :: items) := by
  fun_induction insert item items with
  | case1 => exact .refl _
  | case2 => exact .refl _
  | case3 first rest _ ih => exact (ih.cons first).trans (.swap item first rest)

theorem sort_perm [Ord α] (items : List α) : (sort items).Perm items := by
  induction items with
  | nil => exact .refl _
  | cons first rest ih => exact (insert_perm first (sort rest)).trans (ih.cons first)

@[simp]
theorem mem_sort [Ord α] {item : α} {items : List α} : item ∈ sort items ↔ item ∈ items :=
  (sort_perm items).mem_iff

@[simp]
theorem mem_dropRepeats [DecidableEq α] {item : α} {items : List α} :
    item ∈ dropRepeats items ↔ item ∈ items := by
  fun_induction dropRepeats items with
  | case1 => rfl
  | case2 => rfl
  | case3 first rest ih => simp [ih]
  | case4 first second rest _ ih => rw [List.mem_cons, ih, ← List.mem_cons]

end Reach.Ordered
