/-!
Durations, written in the largest unit of seconds, milliseconds, microseconds and nanoseconds of
which there is at least one, with as many decimals as they need.
-/

namespace Reach

structure Duration where
  nanoseconds : Nat
  deriving DecidableEq

namespace Duration

def ofMicroseconds (count : Nat) : Duration :=
  ⟨1000 * count⟩

def milliseconds (duration : Duration) : Nat :=
  duration.nanoseconds / 1000000

/-- The decimals of `n` units of size ten to the `width`: leading zeros stay, trailing zeros go. -/
def decimals (width n : Nat) : String :=
  let digits := Nat.toDigits 10 n
  let padded := List.replicate (width - digits.length) '0' ++ digits
  String.ofList (padded.reverse.dropWhile (· == '0')).reverse

/-- The duration in a unit of ten to the `width` nanoseconds. -/
def inUnit (width : Nat) (unit : String) (duration : Duration) : String :=
  let whole := duration.nanoseconds / Nat.pow 10 width
  let part := duration.nanoseconds % Nat.pow 10 width
  whole.repr ++ (if part = 0 then "" else "." ++ decimals width part) ++ unit

def text (duration : Duration) : String :=
  if 1000000000 ≤ duration.nanoseconds then duration.inUnit 9 "s"
  else if 1000000 ≤ duration.nanoseconds then duration.inUnit 6 "ms"
  else if 1000 ≤ duration.nanoseconds then duration.inUnit 3 "µs"
  else duration.inUnit 0 "ns"

end Duration

end Reach
