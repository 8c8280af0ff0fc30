import Reach.Enumeration
import Reach.Term.Collection
import Reach.Term.Parts

/-!
Pairing the entries of two collections. Entries with the same ground key are cancelled against each
other first; what is left is paired in every possible way, larger pairings first.
-/

namespace Reach

/-- A pair of terms to be made equal. -/
abbrev Goal := Term × Term

namespace Pairing

/-- Every way to take one element out of a list, with the elements that are left. -/
def picks {α : Type} : List α → List (α × List α)
  | [] => []
  | first :: rest => (first, rest) :: (picks rest).map fun (item, others) => (item, first :: others)

/-- The sequences of `count` distinct positions of the list, in lexicographic order. -/
def arrangements {α : Type} : Nat → List α → Enumeration (List α)
  | 0, _ => .single []
  | count + 1, items =>
    (Enumeration.ofList (picks items)).flatMap fun (item, others) =>
      (arrangements count others).map (item :: ·)

/-- The sublists of `count` elements, in lexicographic order. -/
def selections {α : Type} : Nat → List α → Enumeration (List α)
  | 0, _ => .single []
  | _ + 1, [] => .nil
  | count + 1, first :: rest =>
    ((selections count rest).map (first :: ·)).append fun _ => selections (count + 1) rest

/-- The numbers from `max` down to `min`. -/
def descending (max min : Nat) : List Nat :=
  (List.range (max + 1 - min)).reverse.map (min + ·)

/-- The pairings of exactly `count` positions below `n` with distinct positions below `m`. -/
def ofSize (n m count : Nat) : Enumeration (List Nat × List Nat) :=
  (selections count (List.range n)).flatMap fun left =>
    (arrangements count (List.range m)).map (left, ·)

/-- The pairings of positions below `n` with distinct positions below `m`, of every size between
`min` and `max`, larger ones first. -/
def injections (n m max min : Nat) : Enumeration (List Nat × List Nat) :=
  (Enumeration.ofList (descending max min)).flatMap (ofSize n m)

/-- The goals that make two entries equal; entries of different shapes cannot be. -/
def entryGoals : Entry Term → Entry Term → Option (List Goal)
  | .element a, .element b => some [(a, b)]
  | .binding key value, .binding key' value' => some [(key, key'), (value, value')]
  | _, _ => none

/-- The goals of all pairs, unless one of them cannot be made equal. -/
def allGoals (pairs : List (Entry Term × Entry Term)) : Option (List Goal) :=
  (pairs.mapM fun (a, b) => entryGoals a b).map List.flatten

/-- The items at these positions, in this order. -/
def select {α : Type} (items : List α) (positions : List Nat) : List α :=
  positions.filterMap fun position => items[position]?

/-- The entries at no position of `used`. -/
def remaining (entries : List (Entry Term)) (used : List Nat) : List (Entry Term) :=
  (entries.zipIdx.filter fun (_, position) => !used.contains position).map Prod.fst

/-- Pairs are compared by their first, then by their second components. -/
instance pairOrd {α : Type} [Ord α] : Ord (α × α) :=
  lexOrd

/-- The pairs in order: two pairings that differ by an exchange of equal entries have one key. -/
def key {α : Type} [Ord α] (pairs : List (α × α)) : List (α × α) :=
  Ordered.sort pairs

/-- Each entry as the position of the first that is equal to it. -/
def classes (entries : List (Entry Term)) : List Nat :=
  entries.map fun entry => entries.idxOf entry

/-- Of the pairings with one key the first. Positions of first equal entries stand for the entries,
which tells the same pairings apart; where no entry is repeated every pairing has a key of its own,
and there is nothing to drop. -/
def representatives (left right : List (Entry Term))
    (pairings : Enumeration (List Nat × List Nat)) : Enumeration (List Nat × List Nat) :=
  if left.Nodup ∧ right.Nodup then pairings
  else
    let leftClasses := classes left
    let rightClasses := classes right
    pairings.distinctBy fun (first, second) =>
      key ((select leftClasses first).zip (select rightClasses second))

/-- The first entry with this key, and the entries without it. -/
def takeKey (key : Term) : List (Entry Term) → Option (Entry Term × List (Entry Term))
  | [] => none
  | entry :: rest =>
    if entry.key = key then some (entry, rest)
    else (takeKey key rest).map fun (found, others) => (found, entry :: others)

/-- Two lists of entries after entries with the same ground key were paired off. -/
structure Cancelled where
  /-- Equations between the values of the keys that were paired. -/
  goals : List Goal
  left : List (Entry Term)
  right : List (Entry Term)
  deriving DecidableEq

/-- Pairs off each ground key of the left side with the first equal key of the right side. If
`strict`, a ground key without a partner makes the two sides irreconcilable. -/
def cancel (strict : Bool) : List (Entry Term) → List (Entry Term) → Option Cancelled
  | [], right => some ⟨[], [], right⟩
  | entry :: rest, right =>
    match if entry.key.ground then takeKey entry.key right else none with
    | some (partner, others) => do
      let goals ← entryGoals entry partner
      let c ← cancel strict rest others
      return { c with goals := goals.drop 1 ++ c.goals }
    | none =>
      if strict && entry.key.ground then none
      else (cancel strict rest right).map fun c => { c with left := entry :: c.left }

end Pairing

end Reach
