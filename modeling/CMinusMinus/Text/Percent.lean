/-!
# Percentages

A percentage is computed with 53 significant binary digits and written with one decimal. The quotient
is rounded to the nearest number with 53 digits, its hundredfold is rounded again, and that number is
rounded to tenths; each time a value half way between two neighbours goes to the even one.
-/

namespace CMinusMinus.Text

/-- The whole number nearest to a quotient; of two that are equally near, the even one. -/
def roundDiv (numerator denominator : Nat) : Nat :=
  let quotient := numerator / denominator
  let twice := 2 * (numerator % denominator)
  if twice < denominator then quotient
  else if denominator < twice then quotient + 1
  else quotient + quotient % 2

/-- How many binary digits are significant. -/
def significantBits : Nat := 53

/-- How many binary digits a whole number has. -/
def bitCount (n : Nat) : Nat :=
  if n = 0 then 0 else n.log2 + 1

/-- The quotient of two positive numbers, rounded to the significant digits: the second number says
how many of the binary digits of the first stand after the point. -/
def quotient (numerator denominator : Nat) : Nat × Nat :=
  let places := significantBits + bitCount denominator - bitCount numerator
  let places :=
    if numerator * Nat.pow 2 places / denominator < Nat.pow 2 significantBits then places else places - 1
  (roundDiv (numerator * Nat.pow 2 places) denominator, places)

/-- A whole number rounded to the significant digits. -/
def roundBits (n : Nat) : Nat :=
  let unit := Nat.pow 2 (bitCount n - significantBits)
  roundDiv n unit * unit

/-- What part of `whole` a part of it is, in tenths of a percent. -/
def perMille (part whole : Nat) : Nat :=
  let (digits, places) := quotient part whole
  roundDiv (10 * roundBits (100 * digits)) (Nat.pow 2 places)

/-- What part of `whole` a part of it is, in percent with one decimal. -/
def percent (part whole : Nat) : String :=
  let tenths := perMille part whole
  s!"{tenths / 10}.{tenths % 10}"

end CMinusMinus.Text
