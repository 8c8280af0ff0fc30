import Reach.Term.Order

/-!
The order of terms is total and transitive, as `Std.TransOrd` asks for: with it terms, and what is
made of them, can be the keys of search trees.
-/

namespace Reach

namespace Term

section Swap

theorem orderArgs_swap {args : List Term}
    (swap : ∀ arg ∈ args, ∀ other, order arg other = (order other arg).swap) (args' : List Term) :
    orderArgs args args' = (orderArgs args' args).swap := by
  induction args generalizing args' with
  | nil => cases args' <;> rfl
  | cons arg rest ih =>
    cases args' with
    | nil => rfl
    | cons arg' rest' =>
      rw [orderArgs, orderArgs, Ordering.swap_then, swap arg (by simp),
        ih fun later member => swap later (by simp [member])]

theorem orderEntry_swap {entry : Entry Term}
    (swap : ∀ part ∈ entry.parts, ∀ other, order part other = (order other part).swap)
    (entry' : Entry Term) : orderEntry entry entry' = (orderEntry entry' entry).swap := by
  cases entry with
  | element item =>
    cases entry' with
    | element item' => exact swap item (by simp [Entry.parts]) item'
    | binding _ _ => rfl
  | binding key value =>
    cases entry' with
    | element _ => rfl
    | binding key' value' =>
      rw [orderEntry, orderEntry, Ordering.swap_then, swap key (by simp [Entry.parts]),
        swap value (by simp [Entry.parts])]

theorem orderEntries_swap {entries : List (Entry Term)}
    (swap : ∀ entry ∈ entries, ∀ part ∈ entry.parts, ∀ other,
      order part other = (order other part).swap) (entries' : List (Entry Term)) :
    orderEntries entries entries' = (orderEntries entries' entries).swap := by
  induction entries generalizing entries' with
  | nil => cases entries' <;> rfl
  | cons entry rest ih =>
    cases entries' with
    | nil => rfl
    | cons entry' rest' =>
      rw [orderEntries, orderEntries, Ordering.swap_then, orderEntry_swap (swap entry (by simp)),
        ih fun later member => swap later (by simp [member])]

theorem orderFrame_swap {frame : Option Term}
    (swap : ∀ rest ∈ frame, ∀ other, order rest other = (order other rest).swap)
    (frame' : Option Term) : orderFrame frame frame' = (orderFrame frame' frame).swap := by
  cases frame with
  | none => cases frame' <;> rfl
  | some rest =>
    cases frame' with
    | none => rfl
    | some rest' => exact swap rest rfl rest'

theorem order_swap (first second : Term) : order first second = (order second first).swap := by
  induction first using induct generalizing second with
  | var v =>
    cases second with
    | var w => rw [order, order, Std.OrientedOrd.eq_swap (a := v)]
    | _ => rfl
  | app label sort args ih =>
    cases second with
    | app label' sort' args' =>
      rw [order, order, Ordering.swap_then, Ordering.swap_then, orderArgs_swap ih args',
        Std.OrientedOrd.eq_swap (a := label), Std.OrientedOrd.eq_swap (a := sort)]
    | _ => rfl
  | token sort value =>
    cases second with
    | token sort' value' =>
      rw [order, order, Ordering.swap_then, Std.OrientedOrd.eq_swap (a := sort),
        Std.OrientedOrd.eq_swap (a := value)]
    | _ => rfl
  | collection kind entries frame ihEntries ihFrame =>
    cases second with
    | collection kind' entries' frame' =>
      rw [order, order, Ordering.swap_then, Ordering.swap_then, orderEntries_swap ihEntries,
        orderFrame_swap ihFrame, Std.OrientedOrd.eq_swap (a := kind)]
    | _ => rfl

end Swap

section Transitivity

theorem orderArgs_trans {args : List Term}
    (trans : ∀ arg ∈ args, ∀ second third,
      order arg second = .lt → order second third = .lt → order arg third = .lt)
    {args' args'' : List Term} (below : orderArgs args args' = .lt)
    (below' : orderArgs args' args'' = .lt) : orderArgs args args'' = .lt := by
  induction args generalizing args' args'' with
  | nil => cases args' <;> cases args'' <;> simp_all [orderArgs]
  | cons arg rest ih =>
    cases args' with
    | nil => simp [orderArgs] at below
    | cons arg' rest' =>
      cases args'' with
      | nil => simp [orderArgs] at below'
      | cons arg'' rest'' =>
        simp only [orderArgs, Ordering.then_eq_lt, order_eq_iff] at below below' ⊢
        grind

theorem orderEntry_trans {entry entry' entry'' : Entry Term}
    (trans : ∀ part ∈ entry.parts, ∀ second third,
      order part second = .lt → order second third = .lt → order part third = .lt)
    (below : orderEntry entry entry' = .lt) (below' : orderEntry entry' entry'' = .lt) :
    orderEntry entry entry'' = .lt := by
  cases entry <;> cases entry' <;> cases entry'' <;>
    simp only [orderEntry, Ordering.then_eq_lt, order_eq_iff, reduceCtorEq, Entry.parts] at * <;>
    grind

theorem orderEntries_trans {entries : List (Entry Term)}
    (trans : ∀ entry ∈ entries, ∀ part ∈ entry.parts, ∀ second third,
      order part second = .lt → order second third = .lt → order part third = .lt)
    {entries' entries'' : List (Entry Term)} (below : orderEntries entries entries' = .lt)
    (below' : orderEntries entries' entries'' = .lt) : orderEntries entries entries'' = .lt := by
  induction entries generalizing entries' entries'' with
  | nil => cases entries' <;> cases entries'' <;> simp_all [orderEntries]
  | cons entry rest ih =>
    cases entries' with
    | nil => simp [orderEntries] at below
    | cons entry' rest' =>
      cases entries'' with
      | nil => simp [orderEntries] at below'
      | cons entry'' rest'' =>
        have head := @orderEntry_trans entry entry' entry'' (trans entry (by simp))
        have equal : ∀ a b, orderEntry a b = .eq ↔ a = b := Entry.compare_eq_iff
        simp only [orderEntries, Ordering.then_eq_lt, equal] at below below' ⊢
        grind

theorem orderFrame_trans {frame frame' frame'' : Option Term}
    (trans : ∀ rest ∈ frame, ∀ second third,
      order rest second = .lt → order second third = .lt → order rest third = .lt)
    (below : orderFrame frame frame' = .lt) (below' : orderFrame frame' frame'' = .lt) :
    orderFrame frame frame'' = .lt := by
  cases frame <;> cases frame' <;> cases frame'' <;> simp only [orderFrame, reduceCtorEq] at *
  exact trans _ rfl _ _ below below'

theorem order_of_rank_lt {first second : Term} (lower : first.rank < second.rank) :
    order first second = .lt := by
  cases first <;> cases second <;> simp_all [order, rank, Nat.compare_eq_lt]

theorem rank_le_of_order {first second : Term} (below : order first second = .lt) :
    first.rank ≤ second.rank := by
  cases first <;> cases second <;> simp_all [order, rank, Nat.compare_eq_lt]

/-- Transitivity passes from the two halves of a lexicographic comparison to the whole. -/
theorem then_trans {α : Type} {cmp : α → α → Ordering} (lawful : ∀ a b, cmp a b = .eq ↔ a = b)
    {a b c : α} (trans : cmp a b = .lt → cmp b c = .lt → cmp a c = .lt)
    {rest rest' rest'' : Ordering} (transRest : rest = .lt → rest' = .lt → rest'' = .lt)
    (below : (cmp a b).then rest = .lt) (below' : (cmp b c).then rest' = .lt) :
    (cmp a c).then rest'' = .lt := by
  simp only [Ordering.then_eq_lt, lawful] at *
  rcases below with below | ⟨rfl, below⟩
  · rcases below' with below' | ⟨rfl, _⟩
    · exact .inl (trans below below')
    · exact .inl below
  · exact below'.imp_right fun ⟨same, below'⟩ => ⟨same, transRest below below'⟩

theorem compare_then_trans {α : Type} [Ord α] [Std.TransOrd α] [Std.LawfulEqOrd α] {a b c : α}
    {rest rest' rest'' : Ordering} (transRest : rest = .lt → rest' = .lt → rest'' = .lt)
    (below : (compare a b).then rest = .lt) (below' : (compare b c).then rest' = .lt) :
    (compare a c).then rest'' = .lt := by
  refine then_trans (fun first second => ?_) Std.TransCmp.lt_trans transRest below below'
  exact Std.LawfulEqOrd.compare_eq_iff_eq

/-- A step up to another constructor is final; otherwise all is within one constructor. -/
theorem order_lt_or_rank_eq {first second third : Term} (below : order first second = .lt)
    (below' : order second third = .lt) :
    order first third = .lt ∨ second.rank = first.rank ∧ third.rank = first.rank := by
  have up := rank_le_of_order below
  have up' := rank_le_of_order below'
  rcases Nat.lt_or_ge first.rank third.rank with lower | level
  · exact .inl (order_of_rank_lt lower)
  · exact .inr (by omega)

theorem order_trans {first second third : Term} (below : order first second = .lt)
    (below' : order second third = .lt) : order first third = .lt := by
  induction first using induct generalizing second third with
  | var v =>
    rcases order_lt_or_rank_eq below below' with done | ⟨level, level'⟩
    · exact done
    cases second <;> simp [rank] at level
    cases third <;> simp [rank] at level'
    simp only [order] at below below' ⊢
    exact Std.TransCmp.lt_trans below below'
  | app label sort args ih =>
    rcases order_lt_or_rank_eq below below' with done | ⟨level, level'⟩
    · exact done
    cases second <;> simp [rank] at level
    cases third <;> simp [rank] at level'
    simp only [order] at below below' ⊢
    refine compare_then_trans (compare_then_trans (orderArgs_trans ?_)) below below'
    exact fun arg member _ _ => ih arg member
  | token sort value =>
    rcases order_lt_or_rank_eq below below' with done | ⟨level, level'⟩
    · exact done
    cases second <;> simp [rank] at level
    cases third <;> simp [rank] at level'
    simp only [order] at below below' ⊢
    exact compare_then_trans Std.TransCmp.lt_trans below below'
  | collection kind entries frame ihEntries ihFrame =>
    rcases order_lt_or_rank_eq below below' with done | ⟨level, level'⟩
    · exact done
    cases second <;> simp [rank] at level
    cases third <;> simp [rank] at level'
    simp only [order] at below below' ⊢
    refine compare_then_trans
      (then_trans (fun _ _ => ?_) (orderEntries_trans ?_) (orderFrame_trans ?_)) below below'
    · exact orderEntries_eq (fun _ _ part _ other => order_eq_iff part other) _
    · exact fun entry member part within _ _ => ihEntries entry member part within
    · exact fun rest member _ _ => ihFrame rest member

end Transitivity

/-- A comparison that tells different things apart is transitive if its strict half is. -/
theorem isLE_trans {α : Type} {cmp : α → α → Ordering} (lawful : ∀ a b, cmp a b = .eq ↔ a = b)
    {a b c : α} (trans : cmp a b = .lt → cmp b c = .lt → cmp a c = .lt)
    (below : (cmp a b).isLE) (below' : (cmp b c).isLE) : (cmp a c).isLE := by
  simp only [Ordering.isLE_iff_eq_lt_or_eq_eq, lawful] at *
  rcases below with below | rfl
  · rcases below' with below' | rfl
    · exact .inl (trans below below')
    · exact .inl below
  · exact below'

instance : Std.TransOrd Term where
  eq_swap := order_swap _ _
  isLE_trans := isLE_trans order_eq_iff order_trans

end Term

namespace Entry

instance : Std.TransOrd (Entry Term) where
  eq_swap := Term.orderEntry_swap (fun part _ other => Term.order_swap part other) _
  isLE_trans := Term.isLE_trans compare_eq_iff (Term.orderEntry_trans fun _ _ _ _ => Term.order_trans)

end Entry

end Reach
