import Mathlib.Data.List.FinRange
import Mathlib.Data.PEquiv
import Reach.Proofs.Pairing

/-!
The enumeration of pairings is exact. A pairing lists the pairs of a partial injection by ascending
position on the left, so that no two pairings list the same one. No pairing occurs twice, and those
with more pairs come before those with fewer.
-/

namespace Reach.Pairing

section Repeats

variable {α : Type} {items : List α} {n m max min count : Nat}

private theorem nodup_selections (count : Nat) (distinct : items.Nodup) :
    (selections count items).toList.Nodup := by
  induction items generalizing count with
  | nil => cases count <;> simp [selections]
  | cons first rest ih =>
    obtain ⟨absent, distinctRest⟩ := List.nodup_cons.mp distinct
    cases count with
    | zero => simp [selections]
    | succ count =>
      rw [selections, Enumeration.toList_append, Enumeration.toList_map]
      refine List.Nodup.append ?_ (ih (count + 1) distinctRest) ?_
      · exact (ih count distinctRest).map fun a b same => (List.cons.inj same).2
      · -- Only the lists of the first half have the first item.
        intro chosen first second
        obtain ⟨others, _, rfl⟩ := List.mem_map.mp first
        exact absent ((mem_selections_iff.mp second).2.subset List.mem_cons_self)

theorem length_of_mem_ofSize {pairing : List Nat × List Nat}
    (member : pairing ∈ (ofSize n m count).toList) : pairing.1.length = count := by
  simp only [ofSize, Enumeration.toList_flatMap, Enumeration.toList_map, List.mem_flatMap,
    List.mem_map] at member
  obtain ⟨left, selected, _, _, rfl⟩ := member
  exact (mem_selections_iff.mp selected).1

private theorem nodup_ofSize (n m count : Nat) : (ofSize n m count).toList.Nodup := by
  simp only [ofSize, Enumeration.toList_flatMap, Enumeration.toList_map]
  rw [List.nodup_flatMap]
  constructor
  · intro left _
    exact (nodup_arrangements count List.nodup_range).map fun a b same => (Prod.mk.inj same).2
  · refine (nodup_selections count List.nodup_range).imp fun {left left'} differ => ?_
    refine List.disjoint_left.mpr ?_
    intro pairing first second
    obtain ⟨_, _, rfl⟩ := List.mem_map.mp first
    obtain ⟨_, _, same⟩ := List.mem_map.mp second
    exact differ (Prod.mk.inj same).1.symm

theorem descending_pairwise (max min : Nat) : (descending max min).Pairwise (· > ·) := by
  rw [descending, List.pairwise_map, List.pairwise_reverse]
  exact List.pairwise_lt_range.imp fun below => Nat.add_lt_add_left below min

theorem injections_eq (n m max min : Nat) :
    (injections n m max min).toList =
      (descending max min).flatMap fun count => (ofSize n m count).toList := by
  rw [injections, Enumeration.toList_flatMap, Enumeration.toList_ofList]

private theorem nodup_injections (n m max min : Nat) : (injections n m max min).toList.Nodup := by
  rw [injections_eq, List.nodup_flatMap]
  refine ⟨fun count _ => nodup_ofSize n m count, (descending_pairwise max min).imp fun below => ?_⟩
  refine List.disjoint_left.mpr ?_
  intro pairing first second
  have larger := length_of_mem_ofSize first
  have smaller := length_of_mem_ofSize second
  omega

/-- Larger pairings come first. -/
theorem injections_pairwise (n m max min : Nat) :
    (injections n m max min).toList.Pairwise fun first second =>
      second.1.length ≤ first.1.length := by
  rw [injections_eq, List.pairwise_flatMap]
  constructor
  · intro count _
    refine List.pairwise_of_forall_mem_list fun first member second member' => ?_
    rw [length_of_mem_ofSize member, length_of_mem_ofSize member']
  · refine (descending_pairwise max min).imp fun below first member second member' => ?_
    rw [length_of_mem_ofSize member, length_of_mem_ofSize member']
    exact Nat.le_of_lt below

end Repeats

section Graphs

variable {n m : Nat} {pairing pairing' : List Nat × List Nat} {f g : Fin n ≃. Fin m}

/-- The pairing consists of the pairs of the partial injection. -/
def Lists (pairing : List Nat × List Nat) (f : Fin n ≃. Fin m) : Prop :=
  ∀ i j, j ∈ f i ↔ (i.val, j.val) ∈ pairing.1.zip pairing.2

/-- The number of positions that have a partner. -/
def size (f : Fin n ≃. Fin m) : Nat :=
  (List.finRange n).countP fun i => (f i).isSome

/-- The pairs of a partial injection, by ascending position on the left. -/
def pairs (f : Fin n ≃. Fin m) : List (Nat × Nat) :=
  (List.finRange n).filterMap fun i => (f i).map fun j => (i.val, j.val)

theorem mem_pairs_iff {pair : Nat × Nat} :
    pair ∈ pairs f ↔ ∃ i j, j ∈ f i ∧ (i.val, j.val) = pair := by
  simp [pairs, Option.map_eq_some_iff]

theorem pairs_pairwise (f : Fin n ≃. Fin m) : (pairs f).Pairwise fun a b => a.1 < b.1 := by
  rw [pairs, List.pairwise_filterMap]
  refine (List.pairwise_lt_finRange n).imp fun below a made b made' => ?_
  obtain ⟨_, _, rfl⟩ := Option.map_eq_some_iff.mp made
  obtain ⟨_, _, rfl⟩ := Option.map_eq_some_iff.mp made'
  exact below

private theorem length_pairs (f : Fin n ≃. Fin m) : (pairs f).length = size f := by
  rw [pairs, List.length_filterMap_eq_countP, size]
  simp

/-- The pairs listed by an injection ascend on the left. -/
theorem Injection.zip_pairwise (injection : Injection n m pairing) :
    (pairing.1.zip pairing.2).Pairwise fun a b => a.1 < b.1 := by
  rw [← List.pairwise_map (f := Prod.fst) (R := (· < ·)), List.map_fst_zip injection.length.le]
  exact List.pairwise_lt_range.sublist injection.left

/-- An injection lists a partial injection if and only if its pairs are those, in their order. -/
theorem Injection.lists_iff (injection : Injection n m pairing) :
    Lists pairing f ↔ pairing.1.zip pairing.2 = pairs f := by
  constructor
  · intro lists
    have same (pair : Nat × Nat) : pair ∈ pairing.1.zip pairing.2 ↔ pair ∈ pairs f := by
      rw [mem_pairs_iff]
      constructor
      · intro member
        obtain ⟨left, right⟩ := List.of_mem_zip member
        exact ⟨⟨pair.1, injection.below_left _ left⟩, ⟨pair.2, injection.below _ right⟩,
          (lists _ _).mpr member, rfl⟩
      · rintro ⟨i, j, partner, rfl⟩
        exact (lists i j).mp partner
    have perm : (pairing.1.zip pairing.2).Perm (pairs f) := by
      refine (List.perm_ext_iff_of_nodup ?_ ?_).mpr same
      · exact injection.zip_pairwise.imp fun below equal => (equal ▸ below).false
      · exact (pairs_pairwise f).imp fun below equal => (equal ▸ below).false
    refine perm.eq_of_pairwise (fun a b _ _ below above => ?_) injection.zip_pairwise
      (pairs_pairwise f)
    exact absurd (below.trans above) (lt_irrefl _)
  · intro same i j
    rw [same, mem_pairs_iff]
    constructor
    · exact fun partner => ⟨i, j, partner, rfl⟩
    · rintro ⟨i', j', partner, equal⟩
      obtain ⟨first, second⟩ := Prod.mk.inj equal
      rwa [Fin.ext first, Fin.ext second] at partner

theorem Injection.size_eq (injection : Injection n m pairing) (lists : Lists pairing f) :
    size f = pairing.1.length := by
  rw [← length_pairs, ← injection.lists_iff.mp lists, List.length_zip, ← injection.length,
    Nat.min_self]

/-- No partial injection is listed by two pairings. -/
theorem Injection.eq_of_lists (injection : Injection n m pairing) (injection' : Injection n m pairing')
    (lists : Lists pairing f) (lists' : Lists pairing' f) : pairing = pairing' := by
  have same : pairing.1.zip pairing.2 = pairing'.1.zip pairing'.2 :=
    (injection.lists_iff.mp lists).trans (injection'.lists_iff.mp lists').symm
  refine Prod.ext ?_ ?_
  · rw [← List.map_fst_zip injection.length.le, same, List.map_fst_zip injection'.length.le]
  · rw [← List.map_snd_zip injection.length.ge, same, List.map_snd_zip injection'.length.ge]

/-- Every partial injection is listed by a pairing. -/
theorem exists_lists (f : Fin n ≃. Fin m) : ∃ pairing, Injection n m pairing ∧ Lists pairing f := by
  have injection : Injection n m ((pairs f).map Prod.fst, (pairs f).map Prod.snd) := by
    refine ⟨by simp, ?_, ?_, ?_⟩
    · have ascending : ((pairs f).map Prod.fst).Pairwise (· < ·) := by
        rw [List.pairwise_map]
        exact pairs_pairwise f
      refine List.sublist_of_subperm_of_pairwise ?_ ascending List.pairwise_lt_range
      refine List.subperm_of_subset (ascending.imp Nat.ne_of_lt) fun position member => ?_
      obtain ⟨pair, listed, rfl⟩ := List.mem_map.mp member
      obtain ⟨i, j, _, rfl⟩ := mem_pairs_iff.mp listed
      exact List.mem_range.mpr i.isLt
    · change ((pairs f).map Prod.snd).Pairwise (· ≠ ·)
      rw [List.pairwise_map, pairs, List.pairwise_filterMap]
      refine (List.nodup_finRange n).imp fun differ a made b made' same => ?_
      obtain ⟨j, partner, rfl⟩ := Option.map_eq_some_iff.mp made
      obtain ⟨j', partner', rfl⟩ := Option.map_eq_some_iff.mp made'
      exact differ (f.inj partner (Fin.ext same ▸ partner'))
    · intro position member
      obtain ⟨pair, listed, rfl⟩ := List.mem_map.mp member
      obtain ⟨i, j, _, rfl⟩ := mem_pairs_iff.mp listed
      exact j.isLt
  refine ⟨_, injection, injection.lists_iff.mpr ?_⟩
  rw [List.zip_map', List.map_id']

/-- A search for the only position with a property finds it. -/
theorem mem_find?_finRange_iff {holds : Fin n → Bool}
    (unique : ∀ i j, holds i = true → holds j = true → i = j) {i : Fin n} :
    i ∈ (List.finRange n).find? holds ↔ holds i = true := by
  constructor
  · exact List.find?_some
  · intro here
    cases searched : (List.finRange n).find? holds with
    | none => exact absurd here (List.find?_eq_none.mp searched i (List.mem_finRange i))
    | some j => exact congrArg some (unique j i (List.find?_some searched) here)

/-- The two positions are a pair of the pairing. -/
def joins (pairing : List Nat × List Nat) (i : Fin n) (j : Fin m) : Bool :=
  (pairing.1.zip pairing.2).contains (i.val, j.val)

theorem joins_iff {i : Fin n} {j : Fin m} :
    joins pairing i j = true ↔ (i.val, j.val) ∈ pairing.1.zip pairing.2 :=
  List.contains_iff_mem

/-- A position on the left has one partner. -/
theorem Injection.right_unique (injection : Injection n m pairing) {i : Fin n} (j j' : Fin m)
    (here : joins pairing i j = true) (there : joins pairing i j' = true) : j = j' := by
  have distinct : ((pairing.1.zip pairing.2).map Prod.fst).Nodup := by
    rw [List.map_fst_zip injection.length.le]
    exact injection.nodup_left
  have same := List.inj_on_of_nodup_map distinct (joins_iff.mp here) (joins_iff.mp there) rfl
  exact Fin.ext (Prod.mk.inj same).2

/-- A position on the right has one partner. -/
theorem Injection.left_unique (injection : Injection n m pairing) {j : Fin m} (i i' : Fin n)
    (here : joins pairing i j = true) (there : joins pairing i' j = true) : i = i' := by
  have distinct : ((pairing.1.zip pairing.2).map Prod.snd).Nodup := by
    rw [List.map_snd_zip injection.length.ge]
    exact injection.right
  have same := List.inj_on_of_nodup_map distinct (joins_iff.mp here) (joins_iff.mp there) rfl
  exact Fin.ext (Prod.mk.inj same).1

/-- The partial injection that finds the partner of a position among the pairs. -/
def Injection.partner (injection : Injection n m pairing) : Fin n ≃. Fin m where
  toFun i := (List.finRange m).find? (joins pairing i)
  invFun j := (List.finRange n).find? (joins pairing · j)
  inv _ _ := (mem_find?_finRange_iff injection.left_unique).trans
    (mem_find?_finRange_iff injection.right_unique).symm

/-- Every pairing lists a partial injection. -/
theorem Injection.lists_partner (injection : Injection n m pairing) :
    Lists pairing injection.partner := fun _ _ =>
  (mem_find?_finRange_iff injection.right_unique).trans joins_iff

/-- The enumeration is exact. Each pairing consists of ascending positions below `n` and as many
distinct positions below `m`, and lists a partial injection of a size between `min` and `max`. Every
such partial injection is listed at one place and no other, and the sizes never increase. -/
theorem injections_exact (n m max min : Nat) :
    let listed := (injections n m max min).toList
    (∀ pairing ∈ listed,
        (pairing.1.Pairwise (· < ·) ∧ ∀ position ∈ pairing.1, position < n) ∧
        (pairing.2.length = pairing.1.length ∧ pairing.2.Nodup ∧
          ∀ position ∈ pairing.2, position < m) ∧
        ∃ f : Fin n ≃. Fin m, Lists pairing f ∧ min ≤ size f ∧ size f ≤ max) ∧
      (∀ f : Fin n ≃. Fin m, min ≤ size f ∧ size f ≤ max →
        ∃! place : Nat, ∃ pairing, listed[place]? = some pairing ∧ Lists pairing f) ∧
      listed.Pairwise fun first second => second.1.length ≤ first.1.length := by
  intro listed
  refine ⟨fun pairing member => ?_, fun f bounds => ?_, injections_pairwise n m max min⟩
  · obtain ⟨injection, low, high⟩ := mem_injections_iff.mp member
    have count := injection.size_eq injection.lists_partner
    refine ⟨⟨List.pairwise_lt_range.sublist injection.left, injection.below_left⟩,
      ⟨injection.length.symm, injection.right, injection.below⟩,
      injection.partner, injection.lists_partner, ?_, ?_⟩
    · rwa [count]
    · rwa [count]
  · obtain ⟨pairing, injection, lists⟩ := Pairing.exists_lists f
    have member : pairing ∈ listed :=
      mem_injections_iff.mpr ⟨injection, injection.size_eq lists ▸ bounds⟩
    obtain ⟨place, below, found⟩ := List.mem_iff_getElem.mp member
    refine ⟨place, ⟨pairing, List.getElem?_eq_some_iff.mpr ⟨below, found⟩, lists⟩, ?_⟩
    rintro other ⟨pairing', found', lists'⟩
    obtain ⟨below', found'⟩ := List.getElem?_eq_some_iff.mp found'
    have injection' := (mem_injections_iff.mp (List.mem_of_getElem found')).1
    have same : listed[other] = listed[place] := by
      rw [found, found']
      exact injection'.eq_of_lists injection lists' lists
    exact (nodup_injections n m max min).getElem_inj_iff.mp same

end Graphs

end Reach.Pairing
