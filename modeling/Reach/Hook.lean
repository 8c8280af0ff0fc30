import Reach.Comparison
import Reach.Digest.Sha256
import Reach.Term.Collection
import Reach.Term.Parts
import Reach.Term.Value

/-!
The builtins that a label can be hooked to. A hook gives a result only when its arguments are
concrete enough to determine it; with symbolic arguments, a divisor of zero, or tokens that spell no
value, it gives none and the application stays as it is.
-/

namespace Reach

inductive Hook
  | intAdd
  | intSub
  | intMul
  | intDiv
  | intMod
  | intMin
  | intMax
  | intAbs
  | intCompare (comparison : Comparison)
  | boolNot
  | boolAnd
  | boolOr
  | boolImplies
  | boolXor
  | boolEq
  | stringConcat
  | stringLength
  | stringEq
  | termEq
  | termNe
  | mapLookup
  | mapUpdate
  | mapRemove
  | mapInKeys
  | mapSize
  | setIn
  | setSize
  | listSize
  | sha256
  deriving DecidableEq

namespace Hook

def ofName? : String → Option Hook
  | "INT.add" => some intAdd
  | "INT.sub" => some intSub
  | "INT.mul" => some intMul
  | "INT.div" => some intDiv
  | "INT.mod" => some intMod
  | "INT.min" => some intMin
  | "INT.max" => some intMax
  | "INT.abs" => some intAbs
  | "INT.lt" => some (intCompare .lt)
  | "INT.le" => some (intCompare .le)
  | "INT.gt" => some (intCompare .gt)
  | "INT.ge" => some (intCompare .ge)
  | "INT.eq" => some (intCompare .eq)
  | "INT.ne" => some (intCompare .ne)
  | "BOOL.not" => some boolNot
  | "BOOL.and" => some boolAnd
  | "BOOL.or" => some boolOr
  | "BOOL.implies" => some boolImplies
  | "BOOL.xor" => some boolXor
  | "BOOL.eq" => some boolEq
  | "STRING.concat" => some stringConcat
  | "STRING.length" => some stringLength
  | "STRING.eq" => some stringEq
  | "K.eq" => some termEq
  | "K.ne" => some termNe
  | "MAP.lookup" => some mapLookup
  | "MAP.update" => some mapUpdate
  | "MAP.remove" => some mapRemove
  | "MAP.in_keys" => some mapInKeys
  | "MAP.size" => some mapSize
  | "SET.in" => some setIn
  | "SET.size" => some setSize
  | "LIST.size" => some listSize
  | "HASH.sha256" => some sha256
  | _ => none

/-- An operation on what is read from both of its arguments. -/
def onBoth {α : Type} (read : Term → Option α) (op : α → α → Option Term) (a b : Term) : Option Term := do
  op (← read a) (← read b)

/-- False on either side decides; true on one side leaves the other. -/
def conjunction (a b : Term) : Option Term :=
  match a.bool?, b.bool? with
  | some false, _ => some .falsity
  | _, some false => some .falsity
  | some true, _ => some b
  | _, some true => some a
  | none, none => none

/-- True on either side decides; false on one side leaves the other. -/
def disjunction (a b : Term) : Option Term :=
  match a.bool?, b.bool? with
  | some true, _ => some .truth
  | _, some true => some .truth
  | some false, _ => some b
  | _, some false => some a
  | none, none => none

/-- A false premise or a true conclusion decides; a true premise leaves the conclusion. -/
def implication (a b : Term) : Option Term :=
  match a.bool?, b.bool? with
  | some false, _ => some .truth
  | _, some true => some .truth
  | some true, _ => some b
  | none, _ => none

/-- Structural comparison, decided for ground terms only. -/
def onGround (op : Term → Term → Bool) (a b : Term) : Option Term :=
  if a.ground && b.ground then some (.ofBool (op a b)) else none

/-- The entries and the frame of a collection of this kind. -/
def collection? (kind : Kind) : Term → Option (List (Entry Term) × Option Term)
  | .collection actual entries frame => if actual = kind then some (entries, frame) else none
  | _ => none

/-- Where a key stands among some entries, as far as that can be known. -/
inductive Location
  | found (index : Nat) (entry : Entry Term)
  | absent
  | unknown
  deriving DecidableEq

/-- The key must be ground; it is absent only if no entry has a symbolic key. -/
def locate (key : Term) (entries : List (Entry Term)) : Location :=
  if key.ground then
    match entries.findIdx? (fun entry => entry.key = key) with
    | some index =>
      match entries[index]? with
      | some entry => .found index entry
      | none => .unknown
    | none => if entries.all (fun entry => entry.key.ground) then .absent else .unknown
  else .unknown

/-- Membership is denied only when there is no frame left to look into. -/
def member (kind : Kind) (key container : Term) : Option Term := do
  let (entries, frame) ← collection? kind container
  match locate key entries, frame with
  | .found _ _, _ => some .truth
  | .absent, none => some .falsity
  | _, _ => none

/-- The number of entries of a collection without frame and variables. -/
def count (kind : Kind) (container : Term) : Option Term := do
  let (entries, frame) ← collection? kind container
  if frame.isNone && entries.all (fun entry => entry.parts.all Term.ground) then
    some (.ofInt entries.length)
  else none

def lookup (map key : Term) : Option Term := do
  let (entries, _) ← collection? .map map
  match locate key entries with
  | .found _ (.binding _ value) => some value
  | .found _ (.element item) => some item
  | _ => none

/-- The map without `key`, provided that it is known whether the key is there. -/
def without (key : Term) (entries : List (Entry Term)) (frame : Option Term) :
    Option (List (Entry Term)) :=
  match locate key entries, frame with
  | .found index _, _ => some (entries.eraseIdx index)
  | .absent, none => some entries
  | _, _ => none

def remove (map key : Term) : Option Term := do
  let (entries, frame) ← collection? .map map
  return .normalized .map (← without key entries frame) frame

def update (map key value : Term) : Option Term := do
  let (entries, frame) ← collection? .map map
  return .normalized .map ((← without key entries frame) ++ [.binding key value]) frame

/-- Integer division and its remainder go toward zero. -/
def apply : Hook → List Term → Option Term
  | intAdd, [a, b] => onBoth Term.int? (fun x y => some (.ofInt (x + y))) a b
  | intSub, [a, b] => onBoth Term.int? (fun x y => some (.ofInt (x - y))) a b
  | intMul, [a, b] => onBoth Term.int? (fun x y => some (.ofInt (x * y))) a b
  | intDiv, [a, b] => onBoth Term.int? (fun x y => if y = 0 then none else some (.ofInt (x.tdiv y))) a b
  | intMod, [a, b] => onBoth Term.int? (fun x y => if y = 0 then none else some (.ofInt (x.tmod y))) a b
  | intMin, [a, b] => onBoth Term.int? (fun x y => some (.ofInt (min x y))) a b
  | intMax, [a, b] => onBoth Term.int? (fun x y => some (.ofInt (max x y))) a b
  | intAbs, [a] => a.int?.map fun x => .ofInt x.natAbs
  | intCompare comparison, [a, b] => onBoth Term.int? (fun x y => some (.ofBool (comparison.holds x y))) a b
  | boolNot, [a] => a.bool?.map fun x => .ofBool !x
  | boolAnd, [a, b] => conjunction a b
  | boolOr, [a, b] => disjunction a b
  | boolImplies, [a, b] => implication a b
  | boolXor, [a, b] => onBoth Term.bool? (fun x y => some (.ofBool (x != y))) a b
  | boolEq, [a, b] => onBoth Term.bool? (fun x y => some (.ofBool (x == y))) a b
  | stringConcat, [a, b] => onBoth Term.string? (fun x y => some (.ofString (x ++ y))) a b
  | stringLength, [a] => a.string?.map fun x => .ofInt x.length
  | stringEq, [a, b] => onBoth Term.string? (fun x y => some (.ofBool (x == y))) a b
  | termEq, [a, b] => onGround (fun x y => x = y) a b
  | termNe, [a, b] => onGround (fun x y => x ≠ y) a b
  | mapLookup, [map, key] => lookup map key
  | mapUpdate, [map, key, value] => update map key value
  | mapRemove, [map, key] => remove map key
  | mapInKeys, [key, map] => member .map key map
  | mapSize, [map] => count .map map
  | setIn, [item, set] => member .set item set
  | setSize, [set] => count .set set
  | listSize, [list] => count .list list
  | sha256, [a] => a.string?.map fun x => .ofString (Digest.Sha256.hexDigest x)
  | _, _ => none

/-- The builtin of this name applied to these arguments. -/
def applyNamed (name : String) (args : List Term) : Option Term := do
  (← ofName? name).apply args

end Hook

end Reach
