import Reach.Numeral
import Reach.Term.Basic

/-!
Tokens of the sorts with a fixed meaning: booleans, integers and strings, and the values they
denote. A token that was made from a value denotes that value.
-/

namespace Reach.Term

def ofBool (value : Bool) : Term :=
  token .bool (if value then "true" else "false")

def ofInt (value : Int) : Term :=
  token .int (Numeral.render value)

def ofString (value : String) : Term :=
  token .string value

def truth : Term :=
  ofBool true

def falsity : Term :=
  ofBool false

/-- The value of a boolean token; there are only two spellings. -/
def bool? : Term → Option Bool
  | token .bool "true" => some true
  | token .bool "false" => some false
  | _ => none

/-- The value of an integer token that spells an integer. -/
def int? : Term → Option Int
  | token .int value => Numeral.parse? value
  | _ => none

/-- The contents of a string token. -/
def string? : Term → Option String
  | token .string value => some value
  | _ => none

def isTrue (term : Term) : Bool :=
  term.bool? == some true

def isFalse (term : Term) : Bool :=
  term.bool? == some false

@[simp]
theorem bool?_ofBool (value : Bool) : (ofBool value).bool? = some value := by
  cases value <;> rfl

@[simp]
theorem int?_ofInt (value : Int) : (ofInt value).int? = some value :=
  Numeral.parse?_render value

@[simp]
theorem string?_ofString (value : String) : (ofString value).string? = some value :=
  rfl

theorem bool?_eq_some_iff {term : Term} {value : Bool} :
    term.bool? = some value ↔ term = ofBool value := by
  constructor
  · intro known
    unfold bool? at known
    split at known <;> cases known <;> rfl
  · rintro rfl
    exact bool?_ofBool value

theorem isTrue_iff {term : Term} : term.isTrue = true ↔ term = truth := by
  rw [isTrue, beq_iff_eq, bool?_eq_some_iff, truth]

theorem isFalse_iff {term : Term} : term.isFalse = true ↔ term = falsity := by
  rw [isFalse, beq_iff_eq, bool?_eq_some_iff, falsity]

end Reach.Term
