import CMinusMinus.Operator
import CMinusMinus.Text.Numeral

/-!
# Tokens and places in source text

The words of the language, each with the place where it starts. The minus sign is one token, the
operator `sub`; whether it is unary or binary is decided by the grammar.
-/

namespace CMinusMinus

/-- A place in source text: line and column, both counted from one; columns count code points. The numbers are
machine words: counting goes round behind the last of them. -/
structure Loc where
  line : UInt32
  column : UInt32
deriving DecidableEq, Repr

instance coeWord : Coe UInt32 Nat := ⟨UInt32.toNat⟩

namespace Loc

def start : Loc := ⟨1, 1⟩

/-- The place `count` characters further on the same line. -/
def shift (loc : Loc) (count : Nat) : Loc :=
  { loc with column := loc.column + .ofNat count }

/-- The place after one character: a newline starts the next line. -/
def advance (loc : Loc) (c : Char) : Loc :=
  if c = '\n' then ⟨loc.line + 1, 1⟩ else loc.shift 1

/-- Line and column with a colon between them. -/
def text (loc : Loc) : String :=
  s!"{loc.line}:{loc.column}"

end Loc

/-! ## Tokens -/

/-- The reserved words. -/
inductive Keyword where
  | print | ret | array | ifWord | elseWord | whileWord | forWord
deriving DecidableEq, Repr

def Keyword.spelling : Keyword → String
  | print => "print"
  | ret => "return"
  | array => "array"
  | ifWord => "if"
  | elseWord => "else"
  | whileWord => "while"
  | forWord => "for"

def Keyword.all : List Keyword :=
  [print, ret, array, ifWord, elseWord, whileWord, forWord]

/-- Brackets, separators and the assignment sign. -/
inductive Mark where
  | openParen | closeParen | openBrace | closeBrace | openBracket | closeBracket
  | comma | semicolon | assign
deriving DecidableEq, Repr

/-- The character that writes a mark. -/
def Mark.char : Mark → Char
  | openParen => '('
  | closeParen => ')'
  | openBrace => '\x7b'
  | closeBrace => '\x7d'
  | openBracket => '['
  | closeBracket => ']'
  | comma => ','
  | semicolon => ';'
  | assign => '='

/-- A word of the language. -/
inductive Token where
  | identifier (name : String)
  | integer (value : Nat)
  | keyword (word : Keyword)
  | mark (mark : Mark)
  | operator (op : BinaryOp)
deriving DecidableEq, Repr

/-- The token that a word of letters, digits and underscores writes. -/
def Token.ofWord (word : String) : Token :=
  match Keyword.all.find? (·.spelling == word) with
  | some reserved => .keyword reserved
  | none => .identifier word

/-- How a token is named in an error. -/
def Token.description : Token → String
  | identifier name => s!"identifier '{name}'"
  | integer value => s!"integer {Text.numeral value}"
  | keyword word => s!"'{word.spelling}'"
  | mark m => s!"'{m.char}'"
  | operator op => s!"'{op.symbol}'"

/-- A token and the place where it starts. -/
structure Lexeme where
  token : Token
  loc : Loc
deriving DecidableEq, Repr

/-! ## Syntax errors -/

/-- What the grammar allows where something else was found. -/
inductive Wanted where
  | token (token : Token)
  | identifier
  | statement
  | expression
deriving DecidableEq, Repr

/-- How the wanted thing is named in an error. -/
def Wanted.description : Wanted → String
  | token t => t.description
  | identifier => "an identifier"
  | statement => "a statement"
  | expression => "an expression"

/-- Why a source text is refused; no found token means that the text ended. -/
inductive ParseError.Cause where
  | unexpectedCharacter (c : Char)
  | unexpected (wanted : Wanted) (found : Option Token)
  | nestingTooDeep
deriving DecidableEq, Repr

def ParseError.Cause.message : ParseError.Cause → String
  | unexpectedCharacter c => s!"unexpected character '{c}'"
  | unexpected wanted found =>
    let found := match found with
      | some token => token.description
      | none => "end of input"
    s!"expected {wanted.description}, found {found}"
  | nestingTooDeep => "nesting too deep"

/-- A syntax error and the place it is reported at. -/
structure ParseError where
  cause : ParseError.Cause
  loc : Loc
deriving DecidableEq, Repr

def ParseError.message (e : ParseError) : String :=
  s!"syntax error at {e.loc.text}: {e.cause.message}"

end CMinusMinus
