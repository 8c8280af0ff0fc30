import Mathlib.Data.List.Sort
import Reach.Term.Collection
import Reach.Term.Total

/-!
What the entries of a collection amount to: a list, a multiset or a set of entries, depending on the
kind. `Kind.Same` says when two lists of entries amount to the same, and `arrange` picks one list of
each class.
-/

namespace Reach

namespace Ordered

variable {α : Type} [Ord α] [Std.TransOrd α]

private theorem insert_pairwise {items : List α} (item : α)
    (sorted : items.Pairwise fun a b => (compare a b).isLE) :
    (insert item items).Pairwise fun a b => (compare a b).isLE := by
  fun_induction insert item items with
  | case1 => simp
  | case2 first rest below =>
    obtain ⟨lower, _⟩ := List.pairwise_cons.mp sorted
    refine List.pairwise_cons.mpr ⟨fun later member => ?_, sorted⟩
    rcases List.mem_cons.mp member with rfl | member
    · exact below
    · exact Std.TransCmp.isLE_trans below (lower later member)
  | case3 first rest above ih =>
    obtain ⟨lower, sortedRest⟩ := List.pairwise_cons.mp sorted
    refine List.pairwise_cons.mpr ⟨fun later member => ?_, ih sortedRest⟩
    rcases List.mem_cons.mp ((insert_perm item rest).mem_iff.mp member) with rfl | member
    · have greater : compare later first = .gt := by simpa using above
      rw [Std.OrientedOrd.eq_swap, greater]
      rfl
    · exact lower later member

theorem sort_pairwise (items : List α) :
    (sort items).Pairwise fun a b => (compare a b).isLE := by
  induction items with
  | nil => exact .nil
  | cons first rest ih => exact insert_pairwise first ih

variable [Std.LawfulEqOrd α]

/-- Sorting forgets the order and nothing else. -/
theorem sort_eq_iff {first second : List α} : sort first = sort second ↔ first.Perm second := by
  constructor
  · intro same
    exact (sort_perm first).symm.trans (same ▸ sort_perm second)
  · intro perm
    have sorted : (sort first).Perm (sort second) :=
      (sort_perm first).trans (perm.trans (sort_perm second).symm)
    refine sorted.eq_of_pairwise (fun a b _ _ below above => ?_) (sort_pairwise first)
      (sort_pairwise second)
    exact Std.LawfulEqOrd.eq_of_compare (Std.OrientedCmp.isLE_antisymm below above)

omit [Std.TransOrd α] in
theorem nodup_of_pairwise_lt {items : List α}
    (ascending : items.Pairwise fun a b => compare a b = .lt) : items.Nodup := by
  refine ascending.imp fun below equal => ?_
  subst equal
  rw [Std.ReflOrd.compare_self] at below
  cases below

/-- A strictly ascending list is known by its members. -/
theorem eq_of_pairwise_lt {first second : List α}
    (ascending : first.Pairwise fun a b => compare a b = .lt)
    (ascending' : second.Pairwise fun a b => compare a b = .lt)
    (same : ∀ item, item ∈ first ↔ item ∈ second) : first = second := by
  have perm : first.Perm second :=
    (List.perm_ext_iff_of_nodup (nodup_of_pairwise_lt ascending)
      (nodup_of_pairwise_lt ascending')).mpr same
  refine perm.eq_of_pairwise (fun a b _ _ below above => ?_) ascending ascending'
  have contrary := Std.OrientedCmp.gt_of_lt below
  rw [above] at contrary
  cases contrary

variable [DecidableEq α]

theorem dropRepeats_pairwise {items : List α}
    (sorted : items.Pairwise fun a b => (compare a b).isLE) :
    (dropRepeats items).Pairwise fun a b => compare a b = .lt := by
  fun_induction dropRepeats items with
  | case1 => exact .nil
  | case2 item => simp
  | case3 second rest ih => exact ih (List.pairwise_cons.mp sorted).2
  | case4 first second rest differ ih =>
    obtain ⟨lower, sortedRest⟩ := List.pairwise_cons.mp sorted
    refine List.pairwise_cons.mpr ⟨fun later member => ?_, ih sortedRest⟩
    have below : compare first second = .lt := by
      have step := lower second (by simp)
      rcases Ordering.isLE_iff_eq_lt_or_eq_eq.mp step with strict | same
      · exact strict
      · exact absurd (Std.LawfulEqOrd.eq_of_compare same) differ
    rcases List.mem_cons.mp (mem_dropRepeats.mp member) with rfl | member
    · exact below
    · exact Std.TransCmp.lt_of_lt_of_isLE below ((List.pairwise_cons.mp sortedRest).1 later member)

private theorem nodup_dropRepeats_sort (items : List α) : (dropRepeats (sort items)).Nodup :=
  nodup_of_pairwise_lt (dropRepeats_pairwise (sort_pairwise items))

/-- Sorting and dropping repeats forgets order and multiplicity and nothing else. -/
theorem dropRepeats_sort_eq_iff {first second : List α} :
    dropRepeats (sort first) = dropRepeats (sort second) ↔
      ∀ item, item ∈ first ↔ item ∈ second := by
  constructor
  · intro same item
    rw [← mem_sort, ← mem_dropRepeats, same, mem_dropRepeats, mem_sort]
  · intro same
    refine eq_of_pairwise_lt (dropRepeats_pairwise (sort_pairwise first))
      (dropRepeats_pairwise (sort_pairwise second)) fun item => ?_
    rw [mem_dropRepeats, mem_sort, mem_dropRepeats, mem_sort]
    exact same item

end Ordered

namespace Kind

/-- Two lists of entries amount to the same: as lists, as multisets or as sets. -/
def Same : Kind → List (Entry Term) → List (Entry Term) → Prop
  | list, first, second => first = second
  | bag, first, second => first.Perm second
  | map, first, second => ∀ entry, entry ∈ first ↔ entry ∈ second
  | set, first, second => ∀ entry, entry ∈ first ↔ entry ∈ second

variable {kind : Kind} {first second third : List (Entry Term)}

theorem same_refl (kind : Kind) (entries : List (Entry Term)) : kind.Same entries entries := by
  cases kind <;> simp [Same]

theorem Same.symm (same : kind.Same first second) : kind.Same second first := by
  cases kind with
  | list => exact Eq.symm same
  | bag => exact List.Perm.symm same
  | map => exact fun entry => (same entry).symm
  | set => exact fun entry => (same entry).symm

theorem Same.trans (same : kind.Same first second) (same' : kind.Same second third) :
    kind.Same first third := by
  cases kind with
  | list => exact Eq.trans same same'
  | bag => exact List.Perm.trans same same'
  | map => exact fun entry => (same entry).trans (same' entry)
  | set => exact fun entry => (same entry).trans (same' entry)

theorem same_of_perm (unordered : kind.ordered = false) (perm : first.Perm second) :
    kind.Same first second := by
  cases kind with
  | list => cases unordered
  | bag => exact perm
  | map => exact fun entry => perm.mem_iff
  | set => exact fun entry => perm.mem_iff

theorem Same.mem_iff (same : kind.Same first second) (entry : Entry Term) :
    entry ∈ first ↔ entry ∈ second := by
  cases kind with
  | list => rw [show first = second from same]
  | bag => exact List.Perm.mem_iff same
  | map => exact same entry
  | set => exact same entry

/-- Without merging the number of entries counts. -/
theorem Same.perm (countable : kind.idempotent = false) (same : kind.Same first second) :
    first.Perm second := by
  cases kind with
  | list => exact List.Perm.of_eq same
  | bag => exact same
  | map => cases countable
  | set => cases countable

/-- Without repeats a set is a multiset. -/
theorem same_iff_perm (unordered : kind.ordered = false)
    (distinct : kind.idempotent = true → first.Nodup ∧ second.Nodup) :
    kind.Same first second ↔ first.Perm second := by
  cases kind with
  | list => cases unordered
  | bag => rfl
  | map => exact (List.perm_ext_iff_of_nodup (distinct rfl).1 (distinct rfl).2).symm
  | set => exact (List.perm_ext_iff_of_nodup (distinct rfl).1 (distinct rfl).2).symm

theorem Same.append {first' second' : List (Entry Term)} (same : kind.Same first second)
    (same' : kind.Same first' second') : kind.Same (first ++ first') (second ++ second') := by
  cases kind with
  | list => exact congr (congrArg (· ++ ·) same) same'
  | bag => exact List.Perm.append same same'
  | map => exact fun entry => by rw [List.mem_append, List.mem_append, same entry, same' entry]
  | set => exact fun entry => by rw [List.mem_append, List.mem_append, same entry, same' entry]

theorem Same.map (f : Entry Term → Entry Term) (same : kind.Same first second) :
    kind.Same (first.map f) (second.map f) := by
  cases kind with
  | list => exact congrArg (List.map f) same
  | bag => exact List.Perm.map f same
  | map => exact fun entry => by simp only [List.mem_map, same.mem_iff]
  | set => exact fun entry => by simp only [List.mem_map, same.mem_iff]

theorem Same.eq_nil_iff (same : kind.Same first second) : first = [] ↔ second = [] := by
  simp only [List.eq_nil_iff_forall_not_mem, same.mem_iff]

end Kind

namespace Term

variable {kind : Kind} {first second : List (Entry Term)}

theorem arrange_eq_iff : arrange kind first = arrange kind second ↔ kind.Same first second := by
  cases kind with
  | list => rfl
  | bag => exact Ordered.sort_eq_iff
  | map => exact Ordered.dropRepeats_sort_eq_iff
  | set => exact Ordered.dropRepeats_sort_eq_iff

theorem arrange_same (kind : Kind) (entries : List (Entry Term)) :
    kind.Same (arrange kind entries) entries := by
  cases kind with
  | list => rfl
  | bag => exact Ordered.sort_perm entries
  | map => exact fun entry => Ordered.mem_dropRepeats.trans Ordered.mem_sort
  | set => exact fun entry => Ordered.mem_dropRepeats.trans Ordered.mem_sort

@[simp]
theorem mem_arrange {entry : Entry Term} {entries : List (Entry Term)} :
    entry ∈ arrange kind entries ↔ entry ∈ entries :=
  (arrange_same kind entries).mem_iff entry

@[simp]
theorem arrange_eq_nil {entries : List (Entry Term)} : arrange kind entries = [] ↔ entries = [] :=
  (arrange_same kind entries).eq_nil_iff

theorem arrange_arrange (kind : Kind) (entries : List (Entry Term)) :
    arrange kind (arrange kind entries) = arrange kind entries :=
  arrange_eq_iff.mpr (arrange_same kind entries)

theorem arrange_perm (countable : kind.idempotent = false) (entries : List (Entry Term)) :
    (arrange kind entries).Perm entries :=
  (arrange_same kind entries).perm countable

theorem nodup_arrange (merging : kind.idempotent = true) (entries : List (Entry Term)) :
    (arrange kind entries).Nodup := by
  have unordered : kind.ordered = false := by
    cases kind <;> simp_all [Kind.idempotent, Kind.ordered]
  simp only [arrange, unordered, merging, Bool.false_eq_true, ↓reduceIte]
  exact Ordered.nodup_dropRepeats_sort entries

end Term

end Reach
