import Reach.Term.Value

/-!
Fresh names are numbered by a counter. A variable made fresh keeps the stem of its name and gets the
number as its suffix, so that renaming it again does not make the name grow. Names show numbers of
64 bits, so that they repeat once the counter has gone through all of them.
-/

namespace Reach

/-- A word counts as the number that it spells. -/
instance instCoeUInt64Nat : Coe UInt64 Nat :=
  ⟨UInt64.toNat⟩

/-- How many numbers lie before the one that the next fresh name will get. -/
structure Fresh where
  position : Nat
  deriving DecidableEq

namespace Fresh

def start : Fresh :=
  ⟨0⟩

/-- The number that the next fresh name will get; it wraps around. -/
def next (fresh : Fresh) : UInt64 :=
  .ofNat fresh.position

def draw (fresh : Fresh) : UInt64 × Fresh :=
  (fresh.next, ⟨fresh.position + 1⟩)

/-- The name without a final `#` and the digits after it, unless nothing else is left. -/
def stem (name : String) : String :=
  match name.toList.reverse.dropWhile Char.isDigit with
  | '#' :: before => if before.isEmpty then name else String.ofList before.reverse
  | _ => name

/-- A fresh variable of the sort of `base`, named after it. -/
def variableLike (base : Variable) (fresh : Fresh) : Variable × Fresh :=
  let (number, fresh) := fresh.draw
  ({ name := stem base.name ++ "#" ++ number.toNat.repr, sort := base.sort }, fresh)

/-- A fresh value: the number itself as an integer, or a token that spells it after a `#`. -/
def constantOf (sort : TermSort) (fresh : Fresh) : Term × Fresh :=
  let (number, fresh) := fresh.draw
  match sort with
  | .int => (.ofInt number.toNat, fresh)
  | sort => (.token sort ("#" ++ number.toNat.repr), fresh)

end Fresh

end Reach
