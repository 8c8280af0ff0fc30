import Reach.Term.Basic

/-!
The order of terms: variables, applications, tokens, collections, and within one constructor by
its parts from left to right. Two terms compare equal exactly when they are the same term, which
also decides equality of terms.
-/

namespace Reach

namespace Variable

/-- By name, then by sort. -/
instance : Ord Variable where
  compare := compareLex (compareOn name) (compareOn sort)

instance : Std.TransOrd Variable :=
  inferInstanceAs (Std.TransCmp (compareLex (compareOn name) (compareOn sort)))

instance : Std.LawfulEqOrd Variable where
  compare_self := Ordering.then_eq_eq.mpr ⟨Std.ReflOrd.compare_self, Std.ReflOrd.compare_self⟩
  eq_of_compare := by
    intro first second same
    obtain ⟨sameName, sameSort⟩ := Ordering.then_eq_eq.mp same
    cases first
    cases second
    exact congr (congrArg mk (Std.LawfulEqOrd.eq_of_compare sameName))
      (Std.LawfulEqOrd.eq_of_compare sameSort)

end Variable

namespace Term

def rank : Term → Nat
  | var _ => 0
  | app _ _ _ => 1
  | token _ _ => 2
  | collection _ _ _ => 3

mutual

def order : Term → Term → Ordering
  | var v, var w => compare v w
  | app label sort args, app label' sort' args' =>
    (compare label label').then ((compare sort sort').then (orderArgs args args'))
  | token sort value, token sort' value' => (compare sort sort').then (compare value value')
  | collection kind entries frame, collection kind' entries' frame' =>
    (compare kind kind').then ((orderEntries entries entries').then (orderFrame frame frame'))
  | first, second => compare first.rank second.rank
termination_by structural term => term

/-- Lexicographic; a list that runs out first comes first. -/
def orderArgs : List Term → List Term → Ordering
  | [], [] => .eq
  | [], _ :: _ => .lt
  | _ :: _, [] => .gt
  | first :: rest, second :: rest' => (order first second).then (orderArgs rest rest')
termination_by structural args => args

/-- Elements come before bindings, and keys are compared before values. -/
def orderEntry : Entry Term → Entry Term → Ordering
  | .element item, .element item' => order item item'
  | .element _, .binding _ _ => .lt
  | .binding _ _, .element _ => .gt
  | .binding key value, .binding key' value' => (order key key').then (order value value')
termination_by structural entry => entry

def orderEntries : List (Entry Term) → List (Entry Term) → Ordering
  | [], [] => .eq
  | [], _ :: _ => .lt
  | _ :: _, [] => .gt
  | entry :: rest, entry' :: rest' => (orderEntry entry entry').then (orderEntries rest rest')
termination_by structural entries => entries

/-- A collection without a frame comes before the same entries with one. -/
def orderFrame : Option Term → Option Term → Ordering
  | none, none => .eq
  | none, some _ => .lt
  | some _, none => .gt
  | some frame, some frame' => order frame frame'
termination_by structural frame => frame

end

instance : Ord Term where
  compare := order

theorem orderArgs_eq {args : List Term}
    (lawful : ∀ arg ∈ args, ∀ other, order arg other = .eq ↔ arg = other) (args' : List Term) :
    orderArgs args args' = .eq ↔ args = args' := by
  induction args generalizing args' with
  | nil => cases args' <;> simp [orderArgs]
  | cons arg rest ih =>
    cases args' with
    | nil => simp [orderArgs]
    | cons arg' rest' =>
      rw [orderArgs, Ordering.then_eq_eq, lawful arg (by simp),
        ih (fun later member => lawful later (by simp [member])), List.cons.injEq]

theorem orderEntry_eq {entry : Entry Term}
    (lawful : ∀ part ∈ entry.parts, ∀ other, order part other = .eq ↔ part = other)
    (entry' : Entry Term) : orderEntry entry entry' = .eq ↔ entry = entry' := by
  cases entry <;> cases entry' <;> simp_all [orderEntry, Entry.parts, Ordering.then_eq_eq]

theorem orderEntries_eq {entries : List (Entry Term)}
    (lawful : ∀ entry ∈ entries, ∀ part ∈ entry.parts, ∀ other,
      order part other = .eq ↔ part = other) (entries' : List (Entry Term)) :
    orderEntries entries entries' = .eq ↔ entries = entries' := by
  induction entries generalizing entries' with
  | nil => cases entries' <;> simp [orderEntries]
  | cons entry rest ih =>
    cases entries' with
    | nil => simp [orderEntries]
    | cons entry' rest' =>
      rw [orderEntries, Ordering.then_eq_eq, orderEntry_eq (lawful entry (by simp)),
        ih (fun later member => lawful later (by simp [member])), List.cons.injEq]

theorem orderFrame_eq {frame : Option Term}
    (lawful : ∀ rest ∈ frame, ∀ other, order rest other = .eq ↔ rest = other)
    (frame' : Option Term) : orderFrame frame frame' = .eq ↔ frame = frame' := by
  cases frame <;> cases frame' <;> simp_all [orderFrame]

theorem order_eq_iff (first second : Term) : order first second = .eq ↔ first = second := by
  induction first using induct generalizing second with
  | var v => cases second <;> simp [order, rank]
  | app label sort args ih =>
    cases second <;>
      simp [order, rank, Ordering.then_eq_eq, orderArgs_eq ih]
  | token sort value =>
    cases second <;> simp [order, rank, Ordering.then_eq_eq]
  | collection kind entries frame ihEntries ihFrame =>
    cases second <;>
      simp [order, rank, Ordering.then_eq_eq, orderEntries_eq ihEntries,
        orderFrame_eq ihFrame]

instance : DecidableEq Term := fun first second =>
  decidable_of_iff (order first second = .eq) (order_eq_iff first second)

instance : Std.LawfulEqOrd Term where
  compare_self := (order_eq_iff _ _).mpr rfl
  eq_of_compare same := (order_eq_iff _ _).mp same

end Term

namespace Entry

instance : Ord (Entry Term) where
  compare := Term.orderEntry

theorem compare_eq_iff (first second : Entry Term) : compare first second = .eq ↔ first = second :=
  Term.orderEntry_eq (fun part _ other => Term.order_eq_iff part other) second

instance : Std.LawfulEqOrd (Entry Term) where
  compare_self := (compare_eq_iff _ _).mpr rfl
  eq_of_compare same := (compare_eq_iff _ _).mp same

end Entry

end Reach
