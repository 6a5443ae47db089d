/-!
# Decimal numerals and identifiers

An integer literal is an optional minus sign and decimal digits; a count is an optional plus sign
and decimal digits of 64 bits at most. Leading zeros are allowed in both, and only the
ASCII digits count as digits. No literal is an identifier, since an identifier starts with a letter
or an underscore.
-/

namespace CMinusMinus.Text

/-! ## Integers -/

/-- One digit or more. -/
def isDigits (cs : List Char) : Bool :=
  !cs.isEmpty && cs.all Char.isDigit

/-- Whether a text is an integer literal. -/
def isNumeral (text : String) : Bool :=
  match text.toList with
  | '-' :: cs => isDigits cs
  | cs => isDigits cs

/-- The number that decimal digits denote. -/
def digitsValue (cs : List Char) : Nat :=
  Nat.ofDigitChars 10 cs 0

/-- Reads an integer literal; any other text is refused. -/
def readInt? (text : String) : Option Int :=
  match text.toList with
  | '-' :: cs => if isDigits cs then some (-(digitsValue cs : Int)) else none
  | cs => if isDigits cs then some (digitsValue cs : Int) else none

def numeral (value : Int) : String :=
  value.repr

/-! ## Counts -/

/-- One more than the largest count a machine word holds. -/
def countBound : Nat := 0x10000000000000000

/-- Reads a count; a sign other than plus, a missing digit and a value past the bound are refused. -/
def readCount? (text : String) : Option Nat :=
  let cs := match text.toList with
    | '+' :: cs => cs
    | cs => cs
  if isDigits cs && digitsValue cs < countBound then some (digitsValue cs) else none

/-! ## Identifiers -/

/-- A letter or an underscore. -/
def isIdentifierStart (c : Char) : Bool :=
  c.isAlpha || c == '_'

/-- A letter, a digit or an underscore. -/
def isIdentifierRest (c : Char) : Bool :=
  c.isAlphanum || c == '_'

/-- Whether a text is an identifier: a letter or underscore, then letters, digits and underscores. -/
def isIdentifier (text : String) : Bool :=
  match text.toList with
  | [] => false
  | c :: cs => isIdentifierStart c && cs.all isIdentifierRest

end CMinusMinus.Text
