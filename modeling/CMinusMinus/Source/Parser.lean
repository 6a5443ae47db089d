import CMinusMinus.Source.Lexer
import CMinusMinus.Source.Tree

/-!
# From tokens to syntax trees

Recursive descent over a list of tokens, with a budget for nesting: a block, an expression, a unary
minus and an `else if` each take one unit of it and give the unit back at their end, so that what one
part of a text spends, the next part has again. Two more numbers make the recursion structural. A
loop over the text takes a bound on its rounds; every round reads a token, so the number of tokens is
a bound that no loop reaches. A construct that can hold itself takes a bound on its depth, which
falls where the budget falls and is always above it, so that the budget is spent first.

The six levels of binary operators are left-associative, from the logical or, which binds loosest,
to the multiplicative operators.
-/

namespace CMinusMinus

/-! ## Parsers -/

/-- Why parsing stopped, and the tokens from the one it stopped at. -/
structure Refusal where
  /-- What the grammar allows here; nothing where the nesting budget is spent. -/
  wanted : Option Wanted
  rest : List Lexeme
deriving DecidableEq, Repr

/-- The tokens that are left, and how much deeper the text may nest. -/
structure Parser.State where
  rest : List Lexeme
  budget : Nat
deriving DecidableEq, Repr

/-- Reads a value from the front of a list of tokens. -/
abbrev Parser := StateT Parser.State (Except Refusal)

namespace Parser

def refuse {α : Type} (wanted : Wanted) : Parser α := fun s =>
  .error ⟨some wanted, s.rest⟩

def tooDeep {α : Type} : Parser α := fun s =>
  .error ⟨none, s.rest⟩

/-- The tokens that are left. -/
def ahead : Parser (List Lexeme) :=
  return (← get).rest

/-- Reads a token if it is the given one, and says whether it was. -/
def accept (wanted : Token) : Parser Bool := fun
  | ⟨next :: rest, budget⟩ =>
    if next.token = wanted then .ok (true, ⟨rest, budget⟩) else .ok (false, ⟨next :: rest, budget⟩)
  | ⟨[], budget⟩ => .ok (false, ⟨[], budget⟩)

def token (wanted : Token) : Parser Unit := do
  unless ← accept wanted do
    refuse (.token wanted)

def mark (wanted : Mark) : Parser Unit :=
  token (.mark wanted)

def skip : Parser Unit :=
  modify fun s => { s with rest := s.rest.tail }

/-- Reads an identifier and the place where it starts. -/
def identifier : Parser (String × Loc) := fun
  | ⟨⟨.identifier name, loc⟩ :: rest, budget⟩ => .ok ((name, loc), ⟨rest, budget⟩)
  | s => refuse .identifier s

/-! ## Nesting -/

/-- Takes a unit of the budget. -/
def enter : Parser Unit := fun
  | ⟨rest, 0⟩ => tooDeep ⟨rest, 0⟩
  | ⟨rest, budget + 1⟩ => .ok ((), ⟨rest, budget⟩)

/-- Gives a unit of the budget back. -/
def leave : Parser Unit :=
  modify fun s => { s with budget := s.budget + 1 }

/-- Reads something one level deeper. -/
def nest {α : Type} (inner : Parser α) : Parser α := do
  enter
  let x ← inner
  leave
  return x

/-! ## Lists -/

/-- Reads items with commas between them, up to and with the closing parenthesis. -/
def items {α : Type} (item : Parser α) : Nat → Array α → Parser (List α)
  | 0, _ => refuse (.token (.mark .closeParen))
  | rounds + 1, read => do
    let read := read.push (← item)
    if ← accept (.mark .closeParen) then
      return read.toList
    else
      mark .comma
      items item rounds read

/-- Reads a list of items in parentheses, with commas between them. -/
def parenthesized {α : Type} (rounds : Nat) (item : Parser α) : Parser (List α) := do
  mark .openParen
  if ← accept (.mark .closeParen) then
    return []
  else
    items item rounds #[]

def closing {α : Type} (item : Parser α) : Nat → Array α → Parser (List α)
  | 0, _ => refuse (.token (.mark .closeBrace))
  | rounds + 1, read => do
    if ← accept (.mark .closeBrace) then
      return read.toList
    else if (← ahead).isEmpty then
      refuse (.token (.mark .closeBrace))
    else
      closing item rounds (read.push (← item))

/-! ## Expressions -/

section Expressions

variable (rounds : Nat) (nested : Parser Expr)

/-- Reads indices in brackets, as long as there are any. -/
def indices : Nat → Array Expr → Parser (List Expr)
  | 0, read => return read.toList
  | rounds + 1, read => do
    if ← accept (.mark .openBracket) then
      let index ← nested
      mark .closeBracket
      indices rounds (read.push index)
    else
      return read.toList

def place : Parser Place := do
  let (name, loc) ← identifier
  return ⟨name, ← indices nested rounds #[], loc⟩

def call : Parser Call := do
  let (name, loc) ← identifier
  return ⟨name, ← parenthesized rounds nested, loc⟩

/-- Reads a literal, a call, a place, or an expression in parentheses. -/
def primary : Parser Expr := do
  match ← ahead with
  | ⟨.integer value, _⟩ :: _ =>
    skip
    return .int value
  | ⟨.identifier _, _⟩ :: ⟨.mark .openParen, _⟩ :: _ =>
    let c ← call rounds nested
    return .call c.name c.args c.loc
  | ⟨.identifier _, _⟩ :: _ =>
    let p ← place rounds nested
    return .place p.name p.indices p.loc
  | ⟨.mark .openParen, _⟩ :: _ =>
    skip
    let inner ← nested
    mark .closeParen
    return inner
  | _ => refuse .expression

/-- Reads an operand: what follows a unary minus is read by `negated`. -/
def unary (negated : Parser Expr) : Parser Expr := do
  if ← accept (.operator .sub) then
    return .neg (← negated)
  else
    primary rounds nested

end Expressions

/-- Reads operators of one level and their right operands, as long as there are any. -/
def chain (ops : List BinaryOp) (operand : Parser Expr) : Nat → Expr → Parser Expr
  | 0, lhs => return lhs
  | rounds + 1, lhs => do
    match ← ahead with
    | ⟨.operator op, _⟩ :: _ =>
      if op ∈ ops then
        skip
        chain ops operand rounds (.binary op lhs (← operand))
      else
        return lhs
    | _ => return lhs

/-- Reads operands joined by the operators of one level. -/
def level (rounds : Nat) (ops : List BinaryOp) (operand : Parser Expr) : Parser Expr := do
  chain ops operand rounds (← operand)

/-- The operators of each level, from the one that binds loosest. -/
def levels : List (List BinaryOp) :=
  [[.or], [.and], [.eq, .ne], [.lt, .gt, .le, .ge], [.add, .sub], [.mul, .div, .mod]]

/-- Reads operands joined by the operators of every level. -/
def binary (rounds : Nat) (operand : Parser Expr) : Parser Expr :=
  levels.foldr (level rounds) operand

def unaryAt (rounds : Nat) : Nat → Parser Expr
  | 0 => tooDeep
  | depth + 1 =>
    unary rounds (nest (binary rounds (unaryAt rounds depth))) (nest (unaryAt rounds depth))

def exprAt (rounds depth : Nat) : Parser Expr :=
  nest (binary rounds (unaryAt rounds depth))

/-! ## Statements -/

section Statements

variable (rounds : Nat) (expr : Parser Expr)

def assignment : Parser Assign := do
  let target ← place rounds expr
  mark .assign
  return ⟨target, ← expr⟩

def condition : Parser Expr := do
  mark .openParen
  let test ← expr
  mark .closeParen
  return test

/-- Reads what a statement holds and the semicolon that ends it. -/
def ended {α : Type} (content : Parser α) : Parser α := do
  let value ← content
  mark .semicolon
  return value

/-- Reads the name and the size of a declared array. -/
def arrayDeclaration : Parser Stmt := do
  let (name, _) ← identifier
  mark .openBracket
  let size ← expr
  mark .closeBracket
  return .array name size

variable (nested : Parser Stmt)

def block : Parser Block := do
  mark .openBrace
  nest (closing nested rounds #[])

def whileLoop : Parser Stmt := do
  let test ← condition expr
  return .whileLoop test (← block rounds nested)

def forLoop : Parser Stmt := do
  mark .openParen
  let init ← ended (assignment rounds expr)
  let test ← ended expr
  let step ← assignment rounds expr
  mark .closeParen
  return .forLoop init test step (← block rounds nested)

/-- Reads what follows the word `if`; a conditional right after `else` is a statement one level
deeper. -/
def conditional : Parser Stmt := do
  let test ← condition expr
  let yes ← block rounds nested
  if ← accept (.keyword .elseWord) then
    match ← ahead with
    | ⟨.keyword .ifWord, _⟩ :: _ => return .branch test yes (some [← nest nested])
    | _ => return .branch test yes (some (← block rounds nested))
  else
    return .branch test yes none

def statement : Parser Stmt := do
  match ← ahead with
  | ⟨.keyword .print, _⟩ :: _ =>
    skip
    return .print (← ended expr)
  | ⟨.keyword .ret, _⟩ :: _ =>
    skip
    return .ret (← ended expr)
  | ⟨.keyword .array, _⟩ :: _ =>
    skip
    ended (arrayDeclaration expr)
  | ⟨.keyword .ifWord, _⟩ :: _ =>
    skip
    conditional rounds expr nested
  | ⟨.keyword .whileWord, _⟩ :: _ =>
    skip
    whileLoop rounds expr nested
  | ⟨.keyword .forWord, _⟩ :: _ =>
    skip
    forLoop rounds expr nested
  | ⟨.mark .openBrace, _⟩ :: _ => return .block (← block rounds nested)
  | ⟨.identifier _, _⟩ :: ⟨.mark .openParen, _⟩ :: _ => return .call (← ended (call rounds expr))
  | ⟨.identifier _, _⟩ :: _ => return .assign (← ended (assignment rounds expr))
  | _ => refuse .statement

end Statements

def statementAt (rounds : Nat) : Nat → Parser Stmt
  | 0 => tooDeep
  | depth + 1 => statement rounds (exprAt rounds depth) (statementAt rounds depth)

/-! ## Programs -/

/-- How deep blocks and expressions may nest. -/
def maxNesting : Nat := 200

def function (rounds : Nat) : Parser Function := do
  let (name, loc) ← identifier
  let params ← parenthesized rounds identifier
  let body ← block rounds (statementAt rounds maxNesting)
  return ⟨name, params.map Prod.fst, body, loc⟩

def functions (bound : Nat) : Nat → Array Function → Parser (List Function)
  | 0, read => return read.toList
  | rounds + 1, read => do
    if (← ahead).isEmpty then
      return read.toList
    else
      functions bound rounds (read.push (← function bound))

def program (tokens : List Lexeme) : Except Refusal Tree := do
  let (functions, _) ← functions tokens.length tokens.length #[] ⟨tokens, maxNesting⟩
  return ⟨functions⟩

end Parser

/-! ## Source text -/

/-- The error that a refusal is reported as, in a text that ends at `stop`. -/
def Refusal.toError (refusal : Refusal) (stop : Loc) : ParseError :=
  let found := refusal.rest.head?.map Lexeme.token
  let loc := (refusal.rest.head?.map Lexeme.loc).getD stop
  match refusal.wanted with
  | some wanted => ⟨.unexpected wanted found, loc⟩
  | none => ⟨.nestingTooDeep, loc⟩

def parse (source : String) : Except ParseError Tree := do
  let (tokens, stop) ← Lexer.lex source
  match Parser.program tokens with
  | .ok tree => .ok tree
  | .error refusal => .error (refusal.toError stop)

end CMinusMinus
