import CMinusMinus.Source.Token
import CMinusMinus.Text.Blank

/-!
# From characters to tokens

The longest token that starts at a character is read there. Blanks and comments, which run from two
slashes to the end of the line, are skipped. The whole text is read before any of it is parsed, so
an unexpected character is reported before any other error.
-/

namespace CMinusMinus.Lexer

/-! ## One token -/

/-- The operator or mark that starts with `c`, and how many more characters belong to it. -/
def symbolAt (c : Char) (next : Option Char) : Option (Token × Nat) :=
  match c, next with
  | '=', some '=' => some (.operator .eq, 1)
  | '!', some '=' => some (.operator .ne, 1)
  | '<', some '=' => some (.operator .le, 1)
  | '>', some '=' => some (.operator .ge, 1)
  | '&', some '&' => some (.operator .and, 1)
  | '|', some '|' => some (.operator .or, 1)
  | '=', _ => some (.mark .assign, 0)
  | '<', _ => some (.operator .lt, 0)
  | '>', _ => some (.operator .gt, 0)
  | '+', _ => some (.operator .add, 0)
  | '-', _ => some (.operator .sub, 0)
  | '*', _ => some (.operator .mul, 0)
  | '/', _ => some (.operator .div, 0)
  | '%', _ => some (.operator .mod, 0)
  | '(', _ => some (.mark .openParen, 0)
  | ')', _ => some (.mark .closeParen, 0)
  | '\x7b', _ => some (.mark .openBrace, 0)
  | '\x7d', _ => some (.mark .closeBrace, 0)
  | '[', _ => some (.mark .openBracket, 0)
  | ']', _ => some (.mark .closeBracket, 0)
  | ',', _ => some (.mark .comma, 0)
  | ';', _ => some (.mark .semicolon, 0)
  | _, _ => none

/-- The token that starts with `c` before `cs`, and how many characters of `cs` belong to it. -/
def tokenAt (c : Char) (cs : List Char) : Option (Token × Nat) :=
  if c.isDigit then
    let digits := cs.takeWhile Char.isDigit
    some (.integer (Text.digitsValue (c :: digits)), digits.length)
  else if Text.isIdentifierStart c then
    let rest := cs.takeWhile Text.isIdentifierRest
    some (.ofWord (String.ofList (c :: rest)), rest.length)
  else
    symbolAt c cs.head?

/-! ## All tokens -/

/-- Reads the tokens from `loc` on, after those already `read`; gives the place where the text ends. -/
def lexFrom (loc : Loc) (read : Array Lexeme) : List Char → Except ParseError (List Lexeme × Loc)
  | [] => .ok (read.toList, loc)
  | c :: cs =>
    if Text.isBlank c then
      lexFrom (loc.advance c) read cs
    else if c = '/' ∧ cs.head? = some '/' then
      let skipped := (cs.takeWhile (· ≠ '\n')).length
      lexFrom (loc.shift (skipped + 1)) read (cs.drop skipped)
    else
      match tokenAt c cs with
      | none => .error ⟨.unexpectedCharacter c, loc⟩
      | some (token, more) =>
        lexFrom (loc.shift (more + 1)) (read.push ⟨token, loc⟩) (cs.drop more)
termination_by cs => cs.length
decreasing_by all_goals simp only [List.length_drop, List.length_cons]; omega

/-- The tokens of a source text and the place where it ends. -/
def lex (source : String) : Except ParseError (List Lexeme × Loc) :=
  lexFrom .start #[] source.toList

end CMinusMinus.Lexer
