/-!
# Durations

A duration is written in the largest of seconds, milliseconds, microseconds and nanoseconds of which it
holds at least one, with as many decimals as it needs.
-/

namespace CMinusMinus.Text

/-- What stands after the point of a number with a given number of decimals, without zeros at the end. -/
def decimals (places fraction : Nat) : String :=
  let digits := (fraction + Nat.pow 10 places).repr.toList.drop 1
  String.ofList (digits.reverse.dropWhile (· == '0')).reverse

/-- A number that is given as a multiple of its last decimal place. -/
def decimal (places n : Nat) : String :=
  let whole := (n / Nat.pow 10 places).repr
  match decimals places (n % Nat.pow 10 places) with
  | "" => whole
  | fraction => whole ++ "." ++ fraction

/-- A duration that is given in nanoseconds. -/
def duration (nanoseconds : Nat) : String :=
  if nanoseconds ≥ 1000000000 then decimal 9 nanoseconds ++ "s"
  else if nanoseconds ≥ 1000000 then decimal 6 nanoseconds ++ "ms"
  else if nanoseconds ≥ 1000 then decimal 3 nanoseconds ++ "µs"
  else decimal 0 nanoseconds ++ "ns"

end CMinusMinus.Text
