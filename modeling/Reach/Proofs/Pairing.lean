import Mathlib.Data.List.Perm.Subperm
import Mathlib.Data.List.Nodup
import Reach.Pairing
import Reach.Proofs.Arrangement

/-!
What the enumerations of pairings consist of. An arrangement is a list of distinct positions, a
selection a sublist of positions; each occurs once. Positions split a list of entries into those
that are selected and those that remain.
-/

namespace Reach.Pairing

section Arrangements

variable {α : Type} {items others chosen : List α} {item : α} {count : Nat}

theorem picks_perm (picked : (item, others) ∈ picks items) : items.Perm (item :: others) := by
  induction items generalizing others with
  | nil => cases picked
  | cons first rest ih =>
    simp only [picks, List.mem_cons, List.mem_map, Prod.mk.injEq] at picked
    rcases picked with ⟨rfl, rfl⟩ | ⟨⟨_, left⟩, member, rfl, rfl⟩
    · exact .refl _
    · exact ((ih member).cons first).trans (.swap _ _ _)

theorem map_fst_picks (items : List α) : (picks items).map Prod.fst = items := by
  induction items with
  | nil => rfl
  | cons first rest ih => simpa [picks, Function.comp_def] using ih

theorem toList_arrangements_succ (count : Nat) (items : List α) :
    (arrangements (count + 1) items).toList =
      (picks items).flatMap fun (item, others) =>
        (arrangements count others).toList.map (item :: ·) := by
  simp [arrangements]

/-- Arrangements are the lists of distinct items of the given length. -/
theorem mem_arrangements_iff (distinct : items.Nodup) :
    chosen ∈ (arrangements count items).toList ↔
      chosen.length = count ∧ chosen.Nodup ∧ ∀ item ∈ chosen, item ∈ items := by
  induction count generalizing items chosen with
  | zero =>
    simp only [arrangements, Enumeration.toList_single, List.mem_singleton, List.length_eq_zero_iff]
    constructor
    · rintro rfl
      simp
    · exact fun shape => shape.1
  | succ count ih =>
    simp only [toList_arrangements_succ, List.mem_flatMap, List.mem_map, Prod.exists]
    constructor
    · rintro ⟨first, others, picked, rest, member, rfl⟩
      have perm := picks_perm picked
      obtain ⟨absent, distinctOthers⟩ := List.nodup_cons.mp (perm.nodup_iff.mp distinct)
      obtain ⟨size, distinctRest, inside⟩ := (ih distinctOthers).mp member
      refine ⟨by rw [List.length_cons, size], List.nodup_cons.mpr ⟨?_, distinctRest⟩, ?_⟩
      · exact fun again => absent (inside first again)
      · intro item member
        rcases List.mem_cons.mp member with rfl | later
        · exact perm.mem_iff.mpr (by simp)
        · exact perm.mem_iff.mpr (List.mem_cons_of_mem _ (inside item later))
    · rintro ⟨size, distinctChosen, inside⟩
      cases chosen with
      | nil => cases size
      | cons first rest =>
        have present : first ∈ (picks items).map Prod.fst := by
          rw [map_fst_picks]
          exact inside first (by simp)
        obtain ⟨⟨_, others⟩, picked, rfl⟩ := List.mem_map.mp present
        have perm := picks_perm picked
        obtain ⟨_, distinctOthers⟩ := List.nodup_cons.mp (perm.nodup_iff.mp distinct)
        obtain ⟨absent, distinctRest⟩ := List.nodup_cons.mp distinctChosen
        refine ⟨_, others, picked, rest, (ih distinctOthers).mpr ⟨?_, distinctRest, ?_⟩, rfl⟩
        · exact Nat.succ.inj size
        · intro item member
          have among := perm.mem_iff.mp (inside item (List.mem_cons_of_mem _ member))
          rcases List.mem_cons.mp among with rfl | later
          · exact absurd member absent
          · exact later

theorem nodup_arrangements (count : Nat) (distinct : items.Nodup) :
    (arrangements count items).toList.Nodup := by
  induction count generalizing items with
  | zero => simp [arrangements]
  | succ count ih =>
    rw [toList_arrangements_succ, List.nodup_flatMap]
    constructor
    · rintro ⟨first, others⟩ picked
      obtain ⟨_, distinctOthers⟩ := List.nodup_cons.mp ((picks_perm picked).nodup_iff.mp distinct)
      exact (ih distinctOthers).map fun a b same => (List.cons.inj same).2
    · have heads : (picks items).Pairwise fun a b => a.1 ≠ b.1 := by
        rw [← List.pairwise_map (f := Prod.fst) (R := (· ≠ ·)), map_fst_picks]
        exact distinct
      refine heads.imp fun {a b} differ => ?_
      refine List.disjoint_left.mpr ?_
      intro list inFirst inSecond
      obtain ⟨_, _, rfl⟩ := List.mem_map.mp inFirst
      obtain ⟨_, _, same⟩ := List.mem_map.mp inSecond
      exact differ (List.cons.inj same).1.symm

/-- Selections are the sublists of the given length. -/
theorem mem_selections_iff :
    chosen ∈ (selections count items).toList ↔ chosen.length = count ∧ chosen.Sublist items := by
  induction items generalizing count chosen with
  | nil =>
    cases count with
    | zero => simp [selections]
    | succ count =>
      simp only [selections, Enumeration.toList_nil, List.not_mem_nil, List.sublist_nil, false_iff]
      rintro ⟨size, rfl⟩
      cases size
  | cons first rest ih =>
    cases count with
    | zero =>
      simp only [selections, Enumeration.toList_single, List.mem_singleton,
        List.length_eq_zero_iff]
      exact ⟨fun none => ⟨none, none ▸ List.nil_sublist _⟩, fun shape => shape.1⟩
    | succ count =>
      simp only [selections, Enumeration.toList_append, Enumeration.toList_map, List.mem_append,
        List.mem_map, ih]
      constructor
      · rintro (⟨others, ⟨size, inside⟩, rfl⟩ | ⟨size, inside⟩)
        · exact ⟨by rw [List.length_cons, size], inside.cons_cons first⟩
        · exact ⟨size, inside.cons first⟩
      · rintro ⟨size, inside⟩
        cases inside with
        | cons _ inside => exact .inr ⟨size, inside⟩
        | cons_cons _ inside => exact .inl ⟨_, ⟨Nat.succ.inj size, inside⟩, rfl⟩

/-- A pairing: positions below `n` in order, and as many distinct positions below `m`. -/
structure Injection (n m : Nat) (pairing : List Nat × List Nat) : Prop where
  length : pairing.1.length = pairing.2.length
  left : pairing.1.Sublist (List.range n)
  right : pairing.2.Nodup
  below : ∀ position ∈ pairing.2, position < m

namespace Injection

variable {n m : Nat} {pairing : List Nat × List Nat}

theorem nodup_left (injection : Injection n m pairing) : pairing.1.Nodup :=
  List.nodup_range.sublist injection.left

theorem below_left (injection : Injection n m pairing) : ∀ position ∈ pairing.1, position < n :=
  fun _ member => List.mem_range.mp (injection.left.subset member)

end Injection

private theorem mem_descending {max min count : Nat} :
    count ∈ descending max min ↔ min ≤ count ∧ count ≤ max := by
  simp only [descending, List.mem_map, List.mem_reverse, List.mem_range]
  constructor
  · rintro ⟨offset, below, rfl⟩
    omega
  · rintro ⟨low, high⟩
    exact ⟨count - min, by omega, by omega⟩

/-- What is tried are the injections of the sizes asked for. -/
theorem mem_injections_iff {n m max min : Nat} {pairing : List Nat × List Nat} :
    pairing ∈ (injections n m max min).toList ↔
      Injection n m pairing ∧ min ≤ pairing.1.length ∧ pairing.1.length ≤ max := by
  obtain ⟨first, second⟩ := pairing
  simp only [injections, ofSize, Enumeration.toList_flatMap, Enumeration.toList_ofList,
    Enumeration.toList_map, List.mem_flatMap, List.mem_map, mem_descending, mem_selections_iff,
    mem_arrangements_iff List.nodup_range, List.mem_range, Prod.mk.injEq]
  constructor
  · rintro ⟨count, ⟨low, high⟩, _, ⟨sizeLeft, left⟩, _, ⟨sizeRight, right, below⟩, rfl, rfl⟩
    exact ⟨⟨sizeLeft.trans sizeRight.symm, left, right, below⟩, sizeLeft ▸ low, sizeLeft ▸ high⟩
  · rintro ⟨⟨length, left, right, below⟩, low, high⟩
    exact ⟨_, ⟨low, high⟩, first, ⟨rfl, left⟩, second, ⟨length.symm, right, below⟩, rfl, rfl⟩

end Arrangements

section Positions

variable {α : Type} {items : List α} {positions : List Nat}

theorem select_cons (items : List α) (position : Nat) (positions : List Nat) (item : α)
    (found : items[position]? = some item) :
    select items (position :: positions) = item :: select items positions := by
  simp [select, found]

theorem length_select (inside : ∀ position ∈ positions, position < items.length) :
    (select items positions).length = positions.length := by
  induction positions with
  | nil => rfl
  | cons position rest ih =>
    obtain ⟨item, found⟩ : ∃ item, items[position]? = some item :=
      ⟨_, List.getElem?_eq_getElem (inside position (by simp))⟩
    rw [select_cons _ _ _ _ found, List.length_cons, List.length_cons,
      ih fun other member => inside other (by simp [member])]

theorem mem_select {item : α} :
    item ∈ select items positions ↔ ∃ position ∈ positions, items[position]? = some item := by
  simp [select, List.mem_filterMap]

theorem select_range (items : List α) : select items (List.range items.length) = items := by
  induction items with
  | nil => rfl
  | cons first rest ih =>
    have shifted : select (first :: rest) ((List.range rest.length).map Nat.succ) =
        select rest (List.range rest.length) := by
      simp [select, List.filterMap_map]
    rw [List.length_cons, List.range_succ_eq_map, select_cons _ _ _ first rfl, shifted, ih]

private theorem select_append (items : List α) (first second : List Nat) :
    select items (first ++ second) = select items first ++ select items second :=
  List.filterMap_append

/-- The entries that remain are those at the other positions, in their order. -/
theorem remaining_eq_select (entries : List (Entry Term)) (used : List Nat) :
    remaining entries used =
      select entries ((List.range entries.length).filter fun position =>
        !used.contains position) := by
  have shifted : ∀ (tail : List (Entry Term)) (start : Nat) (whole : List (Entry Term)),
      (∀ offset, whole[start + offset]? = tail[offset]?) →
      ((tail.zipIdx start).filter fun entry => !used.contains entry.2).map Prod.fst =
        select whole ((List.range' start tail.length).filter fun position =>
          !used.contains position) := by
    intro tail
    induction tail with
    | nil => intro start whole _; rfl
    | cons entry rest ih =>
      intro start whole aligned
      have here : whole[start]? = some entry := by simpa using aligned 0
      have later := ih (start + 1) whole fun offset => by
        have next := aligned (offset + 1)
        rw [← Nat.add_assoc, Nat.add_right_comm] at next
        simpa using next
      rw [List.zipIdx_cons, List.length_cons, List.range'_succ, List.filter_cons, List.filter_cons]
      by_cases taken : used.contains start
      · simp only [taken, Bool.not_true, Bool.false_eq_true, ↓reduceIte]
        exact later
      · simp only [taken, Bool.not_false, ↓reduceIte, List.map_cons]
        rw [later, select_cons _ _ _ _ here]
  rw [remaining, List.range_eq_range']
  exact shifted entries 0 entries fun offset => by rw [Nat.zero_add]

private theorem range_perm (distinct : positions.Nodup) {size : Nat}
    (inside : ∀ position ∈ positions, position < size) :
    (positions ++ (List.range size).filter fun position => !positions.contains position).Perm
      (List.range size) := by
  rw [List.perm_ext_iff_of_nodup ?_ List.nodup_range]
  · intro position
    simp only [List.mem_append, List.mem_filter, List.mem_range, Bool.not_eq_true',
      List.contains_eq_mem, decide_eq_false_iff_not]
    constructor
    · rintro (member | ⟨below, _⟩)
      · exact inside position member
      · exact below
    · intro below
      by_cases member : position ∈ positions
      · exact .inl member
      · exact .inr ⟨below, member⟩
  · refine distinct.append (List.nodup_range.filter _) ?_
    intro position member other
    simp only [List.mem_filter, Bool.not_eq_true', List.contains_eq_mem,
      decide_eq_false_iff_not] at other
    exact other.2 member

/-- Distinct positions split a list of entries in two. -/
theorem select_append_remaining_perm {entries : List (Entry Term)} (distinct : positions.Nodup)
    (inside : ∀ position ∈ positions, position < entries.length) :
    (select entries positions ++ remaining entries positions).Perm entries := by
  rw [remaining_eq_select, ← select_append]
  have perm := (range_perm distinct inside).filterMap (fun position => entries[position]?)
  exact perm.trans (.of_eq (select_range entries))

/-- What can be found in a list can be selected from it. -/
theorem exists_positions {chosen rest entries : List (Entry Term)}
    (perm : (chosen ++ rest).Perm entries) :
    ∃ positions : List Nat, positions.length = chosen.length ∧ positions.Nodup ∧
      (∀ position ∈ positions, position < entries.length) ∧ select entries positions = chosen := by
  induction chosen generalizing rest with
  | nil => exact ⟨[], rfl, .nil, by simp, rfl⟩
  | cons first chosen ih =>
    have moved : (chosen ++ first :: rest).Perm entries := List.perm_middle.trans perm
    obtain ⟨positions, size, distinct, inside, selected⟩ := ih moved
    have split := (select_append_remaining_perm distinct inside).trans moved.symm
    rw [selected, List.perm_append_left_iff] at split
    have present : first ∈ remaining entries positions := split.mem_iff.mpr (by simp)
    rw [remaining_eq_select, mem_select] at present
    obtain ⟨position, member, found⟩ := present
    simp only [List.mem_filter, List.mem_range, Bool.not_eq_true', List.contains_eq_mem,
      decide_eq_false_iff_not] at member
    refine ⟨position :: positions, by rw [List.length_cons, size, List.length_cons],
      List.nodup_cons.mpr ⟨member.2, distinct⟩, ?_, ?_⟩
    · intro other within
      rcases List.mem_cons.mp within with rfl | within
      · exact member.1
      · exact inside other within
    · rw [select_cons _ _ _ _ found, selected]

/-- A sublist is selected by positions in order. -/
theorem exists_ascending {chosen : List α} (inside : chosen.Sublist items) :
    ∃ positions : List Nat, positions.Sublist (List.range items.length) ∧
      select items positions = chosen := by
  have shifted (first : α) (rest : List α) (positions : List Nat) :
      select (first :: rest) (positions.map Nat.succ) = select rest positions := by
    simp [select, List.filterMap_map]
  induction inside with
  | slnil => exact ⟨[], List.nil_sublist _, rfl⟩
  | cons first _ ih =>
    obtain ⟨positions, ascending, selected⟩ := ih
    refine ⟨positions.map Nat.succ, ?_, (shifted _ _ _).trans selected⟩
    rw [List.length_cons, List.range_succ_eq_map]
    exact (ascending.map Nat.succ).cons 0
  | cons_cons first _ ih =>
    obtain ⟨positions, ascending, selected⟩ := ih
    refine ⟨0 :: positions.map Nat.succ, ?_, ?_⟩
    · rw [List.length_cons, List.range_succ_eq_map]
      exact (ascending.map Nat.succ).cons_cons 0
    · rw [select_cons _ _ _ first rfl, shifted, selected]

/-- Where images and further items make up the same on both sides, some of the images are the same;
what is left of one side is among the further items of the other, beside some that both have. -/
theorem exists_common {β : Type} (f : α → β) {left right : List α} {more more' : List β}
    (same : (left.map f ++ more).Perm (right.map f ++ more')) :
    ∃ chosen rest chosen' rest' common, chosen.Sublist left ∧ left.Perm (chosen ++ rest) ∧
      right.Perm (chosen' ++ rest') ∧ chosen.map f = chosen'.map f ∧
      more.Perm (rest'.map f ++ common) ∧ more'.Perm (rest.map f ++ common) := by
  induction left generalizing right more' with
  | nil => exact ⟨[], [], [], right, more', .refl _, .refl _, .refl _, rfl, same, .refl _⟩
  | cons item left ih =>
    have present : f item ∈ right.map f ++ more' := same.mem_iff.mp (by simp)
    rcases List.mem_append.mp present with present | present
    · obtain ⟨partner, member, equal⟩ := List.mem_map.mp present
      obtain ⟨before, after, rfl⟩ := List.append_of_mem member
      have split : (before ++ partner :: after).Perm (partner :: (before ++ after)) := List.perm_middle
      have inner := same.trans ((split.map f).append_right more')
      rw [List.map_cons, List.map_cons, equal, List.cons_append, List.cons_append,
        List.perm_cons] at inner
      obtain ⟨chosen, rest, chosen', rest', common, inside, left, right, images, here, there⟩ := ih inner
      refine ⟨item :: chosen, rest, partner :: chosen', rest', common, inside.cons_cons item,
        left.cons item, split.trans (right.cons partner), ?_, here, there⟩
      rw [List.map_cons, List.map_cons, equal, images]
    · obtain ⟨before, after, rfl⟩ := List.append_of_mem present
      have moved : (right.map f ++ (before ++ f item :: after)).Perm
          (f item :: (right.map f ++ (before ++ after))) := by
        rw [← List.append_assoc, ← List.append_assoc]
        exact List.perm_middle
      have inner := same.trans moved
      rw [List.map_cons, List.cons_append, List.perm_cons] at inner
      obtain ⟨chosen, rest, chosen', rest', common, inside, left, right, images, here, there⟩ := ih inner
      refine ⟨chosen, item :: rest, chosen', rest', common, inside.cons item,
        (left.cons item).trans List.perm_middle.symm, right, images, here, ?_⟩
      exact List.perm_middle.trans (there.cons (f item))

theorem remaining_sublist (entries : List (Entry Term)) (positions : List Nat) :
    (remaining entries positions).Sublist entries := by
  have kept := (List.filter_sublist (p := fun pair : Entry Term × Nat =>
    !positions.contains pair.2) (l := entries.zipIdx)).map Prod.fst
  rwa [List.zipIdx_map_fst] at kept

theorem mem_remaining {entries : List (Entry Term)} {entry : Entry Term}
    (member : entry ∈ remaining entries positions) : entry ∈ entries :=
  (remaining_sublist entries positions).subset member

theorem remaining_nil (entries : List (Entry Term)) : remaining entries [] = entries := by
  have all : (List.range entries.length).filter (fun position => !([] : List Nat).contains position) =
      List.range entries.length := List.filter_eq_self.mpr fun _ _ => rfl
  rw [remaining_eq_select, all, select_range]

/-- Where every position is used nothing remains. -/
theorem remaining_eq_nil {entries : List (Entry Term)} (distinct : positions.Nodup)
    (inside : ∀ position ∈ positions, position < entries.length)
    (all : positions.length = entries.length) : remaining entries positions = [] := by
  have size := (select_append_remaining_perm distinct inside).length_eq
  rw [List.length_append, length_select inside] at size
  exact List.eq_nil_of_length_eq_zero (by omega)

/-- In a list without repeats the items tell which positions were selected. -/
theorem map_idxOf_select [DecidableEq α] (distinct : items.Nodup)
    (inside : ∀ position ∈ positions, position < items.length) :
    (select items positions).map (fun item => items.idxOf item) = positions := by
  induction positions with
  | nil => rfl
  | cons position rest ih =>
    obtain ⟨below, insideRest⟩ := List.forall_mem_cons.mp inside
    have found : items[position]? = some (items.get ⟨position, below⟩) :=
      List.getElem?_eq_getElem below
    rw [select_cons _ _ _ _ found, List.map_cons, ih insideRest]
    exact congrArg (· :: rest) (distinct.idxOf_getElem position below)

end Positions

section Goals

variable {f g : Term → Term} {a b : Entry Term} {pairs : List (Entry Term × Entry Term)}
  {goals : List Goal}

theorem entryGoals_parts (made : entryGoals a b = some goals) :
    goals.map Prod.fst = a.parts ∧ goals.map Prod.snd = b.parts := by
  cases a <;> cases b <;> cases made <;> exact ⟨rfl, rfl⟩

/-- Two entries have the same image exactly when their goals are solved. -/
theorem map_eq_map_iff :
    a.map f = b.map g ↔
      ∃ goals, entryGoals a b = some goals ∧ ∀ goal ∈ goals, f goal.1 = g goal.2 := by
  cases a <;> cases b <;> simp [Entry.map, entryGoals, or_imp, forall_and]

theorem allGoals_cons :
    allGoals ((a, b) :: pairs) =
      (entryGoals a b).bind fun goals => (allGoals pairs).map (goals ++ ·) := by
  unfold allGoals
  rw [List.mapM_cons]
  cases made : entryGoals a b with
  | none => simp [made]
  | some goals => cases pairs.mapM fun (a, b) => entryGoals a b <;> simp [made]

theorem allGoals_parts (made : allGoals pairs = some goals) :
    goals.map Prod.fst = pairs.flatMap (fun pair => pair.1.parts) ∧
      goals.map Prod.snd = pairs.flatMap (fun pair => pair.2.parts) := by
  induction pairs generalizing goals with
  | nil =>
    cases made
    exact ⟨rfl, rfl⟩
  | cons pair rest ih =>
    obtain ⟨a, b⟩ := pair
    rw [allGoals_cons] at made
    obtain ⟨head, madeHead, made⟩ := Option.bind_eq_some_iff.mp made
    obtain ⟨tail, madeTail, rfl⟩ := Option.map_eq_some_iff.mp made
    obtain ⟨left, right⟩ := entryGoals_parts madeHead
    obtain ⟨lefts, rights⟩ := ih madeTail
    rw [List.map_append, List.map_append, left, right, lefts, rights]
    exact ⟨rfl, rfl⟩

theorem forall_map_eq_map_iff :
    (∀ pair ∈ pairs, pair.1.map f = pair.2.map g) ↔
      ∃ goals, allGoals pairs = some goals ∧ ∀ goal ∈ goals, f goal.1 = g goal.2 := by
  induction pairs with
  | nil => simp [allGoals]
  | cons pair rest ih =>
    obtain ⟨a, b⟩ := pair
    rw [List.forall_mem_cons, ih, map_eq_map_iff, allGoals_cons]
    constructor
    · rintro ⟨⟨head, madeHead, solvedHead⟩, tail, madeTail, solvedTail⟩
      refine ⟨head ++ tail, by rw [madeHead, madeTail]; rfl, ?_⟩
      exact List.forall_mem_append.mpr ⟨solvedHead, solvedTail⟩
    · rintro ⟨goals, made, solved⟩
      obtain ⟨head, madeHead, made⟩ := Option.bind_eq_some_iff.mp made
      obtain ⟨tail, madeTail, rfl⟩ := Option.map_eq_some_iff.mp made
      obtain ⟨solvedHead, solvedTail⟩ := List.forall_mem_append.mp solved
      exact ⟨⟨head, madeHead, solvedHead⟩, tail, madeTail, solvedTail⟩

theorem map_eq_iff_forall_zip {α β γ : Type} {f : α → γ} {g : β → γ} {first : List α}
    {second : List β} (aligned : first.length = second.length) :
    first.map f = second.map g ↔ ∀ pair ∈ first.zip second, f pair.1 = g pair.2 := by
  induction first generalizing second with
  | nil =>
    cases second with
    | nil => simp
    | cons _ _ => cases aligned
  | cons item rest ih =>
    cases second with
    | nil => cases aligned
    | cons item' rest' =>
      rw [List.map_cons, List.map_cons, List.cons.injEq, ih (Nat.succ.inj aligned), List.zip_cons_cons,
        List.forall_mem_cons]

/-- Lists that agree side by side agree as far as both reach. -/
theorem map_take_eq {α β γ : Type} {f : α → γ} {g : β → γ} {first : List α} {second : List β}
    (same : ∀ pair ∈ first.zip second, f pair.1 = g pair.2) :
    (first.take second.length).map f = (second.take first.length).map g := by
  induction first generalizing second with
  | nil => simp
  | cons item rest ih =>
    cases second with
    | nil => simp
    | cons item' rest' =>
      obtain ⟨here, later⟩ := List.forall_mem_cons.mp same
      simp only [List.length_cons, List.take_succ_cons, List.map_cons]
      rw [ih later]
      exact congrArg (· :: _) here

/-- The images make the front of a list, and what follows them is the rest. -/
theorem map_append_eq_iff {α β : Type} {f : α → β} {first : List α} {second more : List β}
    (fits : first.length ≤ second.length) :
    first.map f ++ more = second ↔
      (∀ pair ∈ first.zip second, f pair.1 = pair.2) ∧ more = second.drop first.length := by
  induction first generalizing second with
  | nil => simp
  | cons item rest ih =>
    cases second with
    | nil => cases fits
    | cons item' rest' =>
      rw [List.map_cons, List.cons_append, List.cons.injEq, ih (Nat.le_of_succ_le_succ fits),
        List.zip_cons_cons, List.forall_mem_cons, List.length_cons, List.drop_succ_cons, and_assoc]

end Goals

section Cancellation

variable {entries left right others : List (Entry Term)} {entry found : Entry Term} {key : Term}
  {strict : Bool} {c : Cancelled} {pairs : List (Entry Term × Entry Term)}

theorem takeKey_eq_some (taken : takeKey key entries = some (found, others)) :
    found.key = key ∧ entries.Perm (found :: others) := by
  induction entries generalizing others with
  | nil => cases taken
  | cons entry rest ih =>
    rw [takeKey] at taken
    split at taken
    · next same =>
      cases taken
      exact ⟨same, .refl _⟩
    · obtain ⟨⟨_, left⟩, deeper, same⟩ := Option.map_eq_some_iff.mp taken
      cases same
      obtain ⟨same, perm⟩ := ih deeper
      exact ⟨same, (perm.cons entry).trans (.swap _ _ _)⟩

theorem takeKey_isSome (member : entry ∈ entries) : (takeKey entry.key entries).isSome = true := by
  induction entries with
  | nil => cases member
  | cons first rest ih =>
    rw [takeKey]
    split
    · rfl
    · next differ =>
      rcases List.mem_cons.mp member with rfl | later
      · exact absurd rfl differ
      · rw [Option.isSome_map]
        exact ih later

/-- The entries that a cancellation paired off, and what it left of both sides. -/
structure Cancels (left right : List (Entry Term)) (c : Cancelled)
    (pairs : List (Entry Term × Entry Term)) : Prop where
  left : left.Perm (pairs.map Prod.fst ++ c.left)
  right : right.Perm (pairs.map Prod.snd ++ c.right)
  keys : ∀ pair ∈ pairs, pair.1.key = pair.2.key ∧ pair.1.key.ground = true
  shapes : ∀ pair ∈ pairs, (entryGoals pair.1 pair.2).isSome = true
  goals : c.goals = pairs.flatMap fun pair => ((entryGoals pair.1 pair.2).getD []).drop 1

theorem exists_cancels (cancelled : cancel strict left right = some c) :
    ∃ pairs, Cancels left right c pairs := by
  induction left generalizing right c with
  | nil =>
    cases cancelled
    exact ⟨[], by simp, by simp, by simp, by simp, rfl⟩
  | cons entry rest ih =>
    rw [cancel] at cancelled
    split at cancelled
    · next partner others taken =>
      split at taken
      · next ground =>
        obtain ⟨same, perm⟩ := takeKey_eq_some taken
        obtain ⟨goals, made, tail⟩ := Option.bind_eq_some_iff.mp cancelled
        obtain ⟨c, deeper, whole⟩ := Option.bind_eq_some_iff.mp tail
        cases whole
        obtain ⟨pairs, spec⟩ := ih deeper
        refine ⟨(entry, partner) :: pairs, spec.left.cons entry, ?_, ?_, ?_, ?_⟩
        · exact perm.trans (spec.right.cons partner)
        · exact List.forall_mem_cons.mpr ⟨⟨same.symm, ground⟩, spec.keys⟩
        · exact List.forall_mem_cons.mpr ⟨by rw [made]; rfl, spec.shapes⟩
        · rw [List.flatMap_cons, ← spec.goals, made]
          rfl
      · cases taken
    · split at cancelled
      · cases cancelled
      · obtain ⟨c, deeper, whole⟩ := Option.map_eq_some_iff.mp cancelled
        cases whole
        obtain ⟨pairs, spec⟩ := ih deeper
        exact ⟨pairs, (spec.left.cons entry).trans List.perm_middle.symm, spec.right, spec.keys,
          spec.shapes, spec.goals⟩

variable {f g : Term → Term}

/-- Where two keys have the same image only the values are left to compare. -/
theorem map_eq_map_iff_drop {a b : Entry Term} {goals : List Goal}
    (made : entryGoals a b = some goals) (same : f a.key = g b.key) :
    a.map f = b.map g ↔ ∀ goal ∈ goals.drop 1, f goal.1 = g goal.2 := by
  cases a <;> cases b <;> cases made <;> simp_all [Entry.map, Entry.key]

theorem Cancels.solved_iff (spec : Cancels left right c pairs)
    (same : ∀ pair ∈ pairs, f pair.1.key = g pair.2.key) :
    (∀ goal ∈ c.goals, f goal.1 = g goal.2) ↔ ∀ pair ∈ pairs, pair.1.map f = pair.2.map g := by
  rw [spec.goals, List.forall_mem_flatMap]
  refine forall_congr' fun pair => imp_congr_right fun member => ?_
  obtain ⟨goals, made⟩ := Option.isSome_iff_exists.mp (spec.shapes pair member)
  rw [made, map_eq_map_iff_drop made (same pair member)]
  rfl

/-- Where the images of what was paired off are found, those of all entries are found among all entries if
those of the others are found among the others. -/
theorem Cancels.perm_iff {more : List (Entry Term)} (spec : Cancels left right c pairs)
    (same : ∀ pair ∈ pairs, pair.1.map f = pair.2) :
    (left.map (Entry.map f) ++ more).Perm right ↔ (c.left.map (Entry.map f) ++ more).Perm c.right := by
  have images : (pairs.map Prod.fst).map (Entry.map f) = pairs.map Prod.snd := by
    rw [List.map_map]
    exact List.map_congr_left same
  have split : (left.map (Entry.map f) ++ more).Perm
      (pairs.map Prod.snd ++ (c.left.map (Entry.map f) ++ more)) := by
    rw [← images, ← List.append_assoc, ← List.map_append]
    exact (spec.left.map _).append_right more
  rw [split.congr_left, spec.right.congr_right, List.perm_append_left_iff]

private theorem entryGoals_drop_parts {a b : Entry Term} {goals : List Goal}
    (made : entryGoals a b = some goals) :
    a.parts = a.key :: (goals.drop 1).map Prod.fst := by
  cases a <;> cases b <;> cases made <;> rfl

theorem Cancels.mem_goals (spec : Cancels left right c pairs) {goal : Goal}
    (member : goal ∈ c.goals) : ∃ pair ∈ pairs, goal.1 ∈ pair.1.parts ∧ goal.2 ∈ pair.2.parts := by
  rw [spec.goals] at member
  obtain ⟨pair, present, inside⟩ := List.mem_flatMap.mp member
  obtain ⟨goals, made⟩ := Option.isSome_iff_exists.mp (spec.shapes pair present)
  rw [made] at inside
  obtain ⟨lefts, rights⟩ := entryGoals_parts made
  have among := List.mem_of_mem_drop inside
  exact ⟨pair, present, lefts ▸ List.mem_map_of_mem among, rights ▸ List.mem_map_of_mem among⟩

/-- The parts of the left side are the keys that were paired off, the left sides of the goals, and
the parts of what is left. -/
theorem Cancels.parts_perm (spec : Cancels left right c pairs) :
    (left.flatMap Entry.parts).Perm
      (pairs.map (fun pair => pair.1.key) ++ c.goals.map Prod.fst ++ c.left.flatMap Entry.parts) := by
  have paired : ((pairs.map Prod.fst).flatMap Entry.parts).Perm
      (pairs.map (fun pair => pair.1.key) ++ c.goals.map Prod.fst) := by
    rw [spec.goals]
    have shapes := spec.shapes
    clear spec
    induction pairs with
    | nil => exact .refl _
    | cons pair rest ih =>
      obtain ⟨shape, shapes⟩ := List.forall_mem_cons.mp shapes
      obtain ⟨goals, made⟩ := Option.isSome_iff_exists.mp shape
      rw [List.map_cons, List.flatMap_cons, List.map_cons, List.flatMap_cons, made, List.map_append,
        entryGoals_drop_parts made, List.cons_append, List.cons_append, Option.getD_some]
      exact (((ih shapes).append_left _).trans (List.perm_append_comm_assoc _ _ _)).cons _
  refine (spec.left.flatMap_right Entry.parts).trans ?_
  rw [List.flatMap_append]
  exact paired.append_right _

/-- What holds of the keys that were paired off holds of all parts of the left side if it holds of
the goals and of the entries that are left. -/
theorem Cancels.forall_parts (spec : Cancels left right c pairs) {holds : Term → Prop}
    (keys : ∀ pair ∈ pairs, holds pair.1.key) :
    (∀ entry ∈ left, ∀ part ∈ entry.parts, holds part) ↔
      (∀ goal ∈ c.goals, holds goal.1) ∧ ∀ entry ∈ c.left, ∀ part ∈ entry.parts, holds part := by
  have split := spec.parts_perm
  rw [← List.forall_mem_flatMap, ← List.forall_mem_flatMap]
  simp only [split.mem_iff]
  rw [List.forall_mem_append, List.forall_mem_append, List.forall_mem_map, List.forall_mem_map]
  simp only [and_iff_right keys]

end Cancellation

section Representatives

variable {left right : List (Entry Term)} {pairing other : List Nat × List Nat}
  {pairings : Enumeration (List Nat × List Nat)}

/-- The entries that a pairing puts side by side. -/
def paired (left right : List (Entry Term)) (pairing : List Nat × List Nat) :
    List (Entry Term × Entry Term) :=
  (select left pairing.1).zip (select right pairing.2)

/-- The number under which a pair of entries is compared. -/
def mark (left right : List (Entry Term)) (pairing : List Nat × List Nat) : List (Nat × Nat) :=
  key ((select (classes left) pairing.1).zip (select (classes right) pairing.2))

theorem select_classes (entries : List (Entry Term)) (positions : List Nat) :
    select (classes entries) positions =
      (select entries positions).map fun entry => entries.idxOf entry := by
  simp only [select, classes, List.map_filterMap, List.getElem?_map]

instance instTransOrdNatProd : Std.TransOrd (Nat × Nat) :=
  inferInstanceAs (Std.TransCmp (compareLex (compareOn Prod.fst) (compareOn Prod.snd)))

instance instLawfulEqOrdNatProd : Std.LawfulEqOrd (Nat × Nat) where
  compare_self := Ordering.then_eq_eq.mpr ⟨Std.ReflOrd.compare_self, Std.ReflOrd.compare_self⟩
  eq_of_compare := by
    intro first second same
    obtain ⟨sameFirst, sameSecond⟩ := Ordering.then_eq_eq.mp same
    exact Prod.ext (Std.LawfulEqOrd.eq_of_compare sameFirst)
      (Std.LawfulEqOrd.eq_of_compare sameSecond)

theorem mem_of_mem_select {α : Type} {items : List α} {positions : List Nat} {item : α}
    (member : item ∈ select items positions) : item ∈ items := by
  obtain ⟨position, _, found⟩ := mem_select.mp member
  exact List.mem_of_getElem? found

/-- Pairings have one key exactly when they pair the same entries. -/
theorem mark_eq_iff :
    mark left right pairing = mark left right other ↔
      (paired left right pairing).Perm (paired left right other) := by
  let encode : Entry Term × Entry Term → Nat × Nat := fun pair =>
    (left.idxOf pair.1, right.idxOf pair.2)
  let decode : Nat × Nat → Option (Entry Term × Entry Term) := fun number => do
    return (← left[number.1]?, ← right[number.2]?)
  have encoded : ∀ pairing, mark left right pairing =
      Ordered.sort ((paired left right pairing).map encode) := by
    intro pairing
    rw [mark, key, select_classes, select_classes, List.zip_map]
    rfl
  have decoded : ∀ pairing, ((paired left right pairing).map encode).filterMap decode =
      paired left right pairing := by
    intro pairing
    rw [List.filterMap_map]
    refine (List.filterMap_congr fun pair member => ?_).trans List.filterMap_some
    have first := mem_of_mem_select (List.of_mem_zip member).1
    have second := mem_of_mem_select (List.of_mem_zip member).2
    simp [encode, decode, List.idxOf_lt_length_iff, first, second]
  rw [encoded, encoded, Ordered.sort_eq_iff]
  constructor
  · intro perm
    rw [← decoded pairing, ← decoded other]
    exact perm.filterMap decode
  · exact fun perm => perm.map encode

theorem representatives_sublist (left right : List (Entry Term))
    (pairings : Enumeration (List Nat × List Nat)) :
    (representatives left right pairings).toList.Sublist pairings.toList := by
  unfold representatives
  split
  · exact .refl _
  · exact Enumeration.distinctFrom_sublist _ _ _

/-- Whatever entries a pairing puts side by side, some representative puts the same together. -/
theorem exists_representative (member : pairing ∈ pairings.toList) :
    ∃ chosen ∈ (representatives left right pairings).toList,
      (paired left right chosen).Perm (paired left right pairing) := by
  unfold representatives
  split
  · exact ⟨pairing, member, .refl _⟩
  · have kept : mark left right pairing ∈
        (pairings.distinctFrom (mark left right) ∅).toList.map (mark left right) :=
      Enumeration.mem_map_distinctFrom.mpr ⟨List.mem_map_of_mem member, by simp⟩
    obtain ⟨chosen, present, same⟩ := List.mem_map.mp kept
    exact ⟨chosen, present, mark_eq_iff.mp same⟩

/-- Where entries repeat, no two representatives pair the same entries. -/
theorem representatives_pairwise (repeated : ¬(left.Nodup ∧ right.Nodup))
    (pairings : Enumeration (List Nat × List Nat)) :
    (representatives left right pairings).toList.Pairwise fun first second =>
      ¬(paired left right first).Perm (paired left right second) := by
  unfold representatives
  rw [if_neg repeated]
  have distinct := Enumeration.nodup_map_distinctFrom (mark left right) ∅ pairings
  exact (List.pairwise_map.mp distinct).imp fun differ perm => differ (mark_eq_iff.mpr perm)

end Representatives

end Reach.Pairing
