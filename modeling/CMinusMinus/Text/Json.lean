/-!
# Indented JSON

A document is printed with two spaces of indentation a level, one member or item a line, and a space
after the colon of a member. An empty list or record stays on its line. In strings the quote, the
backslash and the control characters are escaped and every other character is written as it is.
-/

namespace CMinusMinus.Text

/-- A JSON document without booleans, fractions and negative numbers. -/
inductive Json where
  | null
  | number (value : Nat)
  | string (value : String)
  | list (items : List Json)
  | record (members : List (String × Json))

namespace Json

/-! ## Strings -/

/-- A digit of a number in base sixteen. -/
def hexDigit (n : Nat) : Char :=
  Nat.digitChar (n % 16)

/-- How a character is written in a string. -/
def escape (c : Char) : List Char :=
  match c with
  | '"' => ['\\', '"']
  | '\\' => ['\\', '\\']
  | '\n' => ['\\', 'n']
  | '\r' => ['\\', 'r']
  | '\t' => ['\\', 't']
  | '\x08' => ['\\', 'b']
  | '\x0c' => ['\\', 'f']
  | c =>
    if c.toNat < 0x20 then ['\\', 'u', '0', '0', hexDigit (c.toNat / 16), hexDigit c.toNat] else [c]

/-- A string in quotes. -/
def quote (value : String) : String :=
  "\"" ++ String.ofList (value.toList.flatMap escape) ++ "\""

/-! ## Documents -/

/-- A new line with the indentation of a level. -/
def newline (level : Nat) : String :=
  "\n".pushn ' ' (2 * level)

mutual

/-- Writes a document at a level of indentation after the text written so far. -/
def write (written : String) (level : Nat) : Json → String
  | null => written ++ "null"
  | number value => written ++ value.repr
  | string value => written ++ quote value
  | list [] => written ++ "[]"
  | list (item :: items) =>
    let written := write (written ++ "[" ++ newline (level + 1)) (level + 1) item
    writeItems written (level + 1) items ++ newline level ++ "]"
  | record [] => written ++ "\x7b\x7d"
  | record ((key, value) :: members) =>
    let written := written ++ "\x7b" ++ newline (level + 1) ++ quote key ++ ": "
    writeMembers (write written (level + 1) value) (level + 1) members ++ newline level ++ "\x7d"

def writeItems (written : String) (level : Nat) : List Json → String
  | [] => written
  | item :: items => writeItems (write (written ++ "," ++ newline level) level item) level items

def writeMembers (written : String) (level : Nat) : List (String × Json) → String
  | [] => written
  | (key, value) :: members =>
    let written := written ++ "," ++ newline level ++ quote key ++ ": "
    writeMembers (write written level value) level members

end

/-- The indented text of a document. -/
def pretty (document : Json) : String :=
  write "" 0 document

end Json

end CMinusMinus.Text
