/-!
Sorts classify terms. Four of them are the sorts of the builtin collections, one per kind; the top
sort accepts a term of any sort, and every other sort accepts only itself.
-/

namespace Reach

/-- The kinds of builtin collections. -/
inductive Kind
  | map
  | set
  | list
  | bag
  deriving DecidableEq

/-- A builtin sort, or an uninterpreted sort known only by its name. -/
inductive TermSort
  | top
  | bool
  | int
  | string
  | map
  | set
  | list
  | bag
  | named (name : String)
  deriving DecidableEq

namespace Kind

/-- The sort of the collections of this kind. -/
def sort : Kind → TermSort
  | map => .map
  | set => .set
  | list => .list
  | bag => .bag

/-- Lists are the only collections whose entry order is significant. -/
def ordered (kind : Kind) : Bool :=
  kind == list

/-- A repeated entry counts once, except in lists and bags. -/
def idempotent (kind : Kind) : Bool :=
  kind == map || kind == set

def rank : Kind → Nat
  | map => 0
  | set => 1
  | list => 2
  | bag => 3

instance : Ord Kind where
  compare := compareOn rank

instance : Std.TransOrd Kind :=
  inferInstanceAs (Std.TransCmp (compareOn rank))

theorem rank_injective {first second : Kind} (same : first.rank = second.rank) :
    first = second := by
  cases first <;> cases second <;> simp_all [rank]

instance : Std.LawfulEqOrd Kind where
  compare_self := @fun kind => (Std.ReflOrd.compare_self : compare kind.rank kind.rank = .eq)
  eq_of_compare same := rank_injective (Std.LawfulEqOrd.eq_of_compare same)

end Kind

namespace TermSort

/-- Names of builtin sorts denote them; any other name is an uninterpreted sort. -/
def ofName : String → TermSort
  | "K" => top
  | "Bool" => bool
  | "Int" => int
  | "String" => string
  | "Map" => map
  | "Set" => set
  | "List" => list
  | "Bag" => bag
  | name => named name

def name : TermSort → String
  | top => "K"
  | bool => "Bool"
  | int => "Int"
  | string => "String"
  | map => "Map"
  | set => "Set"
  | list => "List"
  | bag => "Bag"
  | named name => name

/-- Whether a term of sort `found` may appear where `expected` is required. -/
def accepts (expected found : TermSort) : Bool :=
  expected == found || expected == top

/-- Two sorts one of which accepts the other. -/
def compatible (first second : TermSort) : Bool :=
  first.accepts second || second.accepts first

/-- The kind whose collections have this sort. -/
def kind? : TermSort → Option Kind
  | map => some .map
  | set => some .set
  | list => some .list
  | bag => some .bag
  | _ => none

def rank : TermSort → Nat
  | top => 0
  | bool => 1
  | int => 2
  | string => 3
  | map => 4
  | set => 5
  | list => 6
  | bag => 7
  | named _ => 8

/-- Builtin sorts come first, in the order of their declaration; named sorts go by their name. -/
instance : Ord TermSort where
  compare := compareLex (compareOn rank) (compareOn name)

instance : Std.TransOrd TermSort :=
  inferInstanceAs (Std.TransCmp (compareLex (compareOn rank) (compareOn name)))

theorem eq_of_rank_of_name {first second : TermSort} (sameRank : first.rank = second.rank)
    (sameName : first.name = second.name) : first = second := by
  cases first with
  | named label =>
    cases second with
    | named other => exact congrArg named sameName
    | _ => cases sameRank
  | _ => cases second <;> simp_all [rank]

instance : Std.LawfulEqOrd TermSort where
  compare_self := Ordering.then_eq_eq.mpr ⟨Std.ReflOrd.compare_self, Std.ReflOrd.compare_self⟩
  eq_of_compare same := by
    obtain ⟨sameRank, sameName⟩ := Ordering.then_eq_eq.mp same
    exact eq_of_rank_of_name (Std.LawfulEqOrd.eq_of_compare sameRank)
      (Std.LawfulEqOrd.eq_of_compare sameName)

theorem accepts_self (sort : TermSort) : sort.accepts sort = true := by
  simp [accepts]

end TermSort

end Reach
