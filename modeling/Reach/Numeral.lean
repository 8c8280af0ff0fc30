/-!
Integer literals. A literal is read leniently, with a sign and with underscores between its digits,
and always written as a plain decimal, which reads back as the same integer.
-/

namespace Reach.Numeral

/-- Decimal digits, among which underscores may stand anywhere but first. -/
def magnitude? : List Char → Option Nat
  | [] => none
  | first :: rest =>
    if first.isDigit && rest.all (fun c => c.isDigit || c == '_') then
      some (Nat.ofDigitChars 10 ((first :: rest).filter Char.isDigit) 0)
    else none

/-- At most one sign may precede the digits. -/
def parse? (text : String) : Option Int :=
  match text.toList with
  | '-' :: digits => (magnitude? digits).map fun n => -(n : Int)
  | '+' :: digits => (magnitude? digits).map Int.ofNat
  | digits => (magnitude? digits).map Int.ofNat

/-- Plain decimal, with a minus sign for negative integers only. -/
def render : Int → String
  | .ofNat n => n.repr
  | .negSucc n => "-" ++ (n + 1).repr

theorem magnitude?_toDigits (n : Nat) : magnitude? (Nat.toDigits 10 n) = some n := by
  have digits : ∀ c ∈ Nat.toDigits 10 n, c.isDigit = true :=
    fun c member => Nat.isDigit_of_mem_toDigits (by decide) (by decide) member
  have value : Nat.ofDigitChars 10 (Nat.toDigits 10 n) 0 = n := Nat.ofDigitChars_ten_toDigits
  cases shape : Nat.toDigits 10 n with
  | nil => exact absurd shape Nat.toDigits_ne_nil
  | cons first rest =>
    rw [shape] at digits value
    have kept : (first :: rest).filter Char.isDigit = first :: rest :=
      List.filter_eq_self.mpr digits
    have head := digits first (by simp)
    have tail : ∀ c ∈ rest, c.isDigit = true := fun c member => digits c (by simp [member])
    simp only [magnitude?, kept, value, head]
    simp +contextual [tail]

theorem isDigit_of_toDigits_eq_cons {n : Nat} {first : Char} {rest : List Char}
    (shape : Nat.toDigits 10 n = first :: rest) : first.isDigit = true :=
  Nat.isDigit_of_mem_toDigits (b := 10) (n := n) (by decide) (by decide) (by rw [shape]; simp)

theorem parse?_render (value : Int) : parse? (render value) = some value := by
  cases value with
  | ofNat n =>
    have read := magnitude?_toDigits n
    simp only [parse?, render, Nat.repr_eq_ofList_toDigits, String.toList_ofList]
    split
    · next digits shape => simpa using isDigit_of_toDigits_eq_cons shape
    · next digits shape => simpa using isDigit_of_toDigits_eq_cons shape
    · simp [read]
  | negSucc n =>
    simp [parse?, render, Nat.repr_eq_ofList_toDigits, magnitude?_toDigits]
    omega

end Reach.Numeral
