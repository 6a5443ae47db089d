import CMinusMinus.Source.Token
import CMinusMinus.Source.Tree

/-!
# The grammar

Which sequences of tokens derive which syntax trees. A derivation stays below a bound on its nesting:
a block, an `expr`, a unary minus and an `else if` are derived at `d + 1` from what is inside them at
`d`, and every other rule keeps the bound. An integer is the value of the literal, a name carries the
place where it is written, and parentheses leave nothing in the tree.

    program     := function*
    function    := IDENT '(' [IDENT (',' IDENT)*] ')' block
    block       := '{' statement* '}'
    statement   := 'print' expr ';'
                 | 'return' expr ';'
                 | 'array' IDENT '[' expr ']' ';'
                 | 'if' '(' expr ')' block ['else' (block | if-statement)]
                 | 'while' '(' expr ')' block
                 | 'for' '(' assign ';' expr ';' assign ')' block
                 | assign ';'
                 | call ';'
                 | block
    assign      := place '=' expr
    place       := IDENT ('[' expr ']')*
    call        := IDENT '(' [expr (',' expr)*] ')'
    expr        := or
    or          := and ('||' and)*
    and         := equality ('&&' equality)*
    equality    := relational (('==' | '!=') relational)*
    relational  := additive (('<' | '>' | '<=' | '>=') additive)*
    additive    := term (('+' | '-') term)*
    term        := unary (('*' | '/' | '%') unary)*
    unary       := '-' unary | primary
    primary     := INTEGER | call | place | '(' expr ')'
-/

namespace CMinusMinus.Grammar

/-! ## Expressions -/

/-- The operators of `or`, `and`, `equality`, `relational`, `additive` and `term`. -/
def precedence : List (List BinaryOp) :=
  [[.or], [.and], [.eq, .ne], [.lt, .gt, .le, .ge], [.add, .sub], [.mul, .div, .mod]]

mutual

inductive DerivesExpr : Nat → List Lexeme → Expr → Prop
  | levels {d ts e} : DerivesLevel precedence d ts e → DerivesExpr (d + 1) ts e

/-- Operands of the tighter levels with operators of the first level between them: the tree leans to
the left. Below the tightest level stands `unary`. -/
inductive DerivesLevel : List (List BinaryOp) → Nat → List Lexeme → Expr → Prop
  | unary {d ts e} : DerivesUnary d ts e → DerivesLevel [] d ts e
  | operand {ops levels d ts e} : DerivesLevel levels d ts e → DerivesLevel (ops :: levels) d ts e
  | binary {ops levels d ts us op loc lhs rhs} :
      DerivesLevel (ops :: levels) d ts lhs → op ∈ ops → DerivesLevel levels d us rhs →
        DerivesLevel (ops :: levels) d (ts ++ ⟨.operator op, loc⟩ :: us) (.binary op lhs rhs)

inductive DerivesUnary : Nat → List Lexeme → Expr → Prop
  | neg {d loc ts e} :
      DerivesUnary d ts e → DerivesUnary (d + 1) (⟨.operator .sub, loc⟩ :: ts) (.neg e)
  | primary {d ts e} : DerivesPrimary d ts e → DerivesUnary d ts e

inductive DerivesPrimary : Nat → List Lexeme → Expr → Prop
  | int {d value loc} : DerivesPrimary d [⟨.integer value, loc⟩] (.int value)
  | call {d ts c} : DerivesCall d ts c → DerivesPrimary d ts (.call c.name c.args c.loc)
  | place {d ts p} : DerivesPlace d ts p → DerivesPrimary d ts (.place p.name p.indices p.loc)
  | parenthesized {d l ts e r} : DerivesExpr d ts e →
      DerivesPrimary d (⟨.mark .openParen, l⟩ :: (ts ++ [⟨.mark .closeParen, r⟩])) e

inductive DerivesPlace : Nat → List Lexeme → Place → Prop
  | indexed {d name loc ts indices} : DerivesIndices d ts indices →
      DerivesPlace d (⟨.identifier name, loc⟩ :: ts) ⟨name, indices, loc⟩

inductive DerivesIndices : Nat → List Lexeme → List Expr → Prop
  | nil {d} : DerivesIndices d [] []
  | cons {d l ts index r us indices} : DerivesExpr d ts index → DerivesIndices d us indices →
      DerivesIndices d (⟨.mark .openBracket, l⟩ :: (ts ++ ⟨.mark .closeBracket, r⟩ :: us))
        (index :: indices)

inductive DerivesCall : Nat → List Lexeme → Call → Prop
  | empty {d name loc l r} :
      DerivesCall d [⟨.identifier name, loc⟩, ⟨.mark .openParen, l⟩, ⟨.mark .closeParen, r⟩]
        ⟨name, [], loc⟩
  | args {d name loc l ts args r} : DerivesArgs d ts args →
      DerivesCall d
        (⟨.identifier name, loc⟩ :: ⟨.mark .openParen, l⟩ :: (ts ++ [⟨.mark .closeParen, r⟩]))
        ⟨name, args, loc⟩

/-- One expression or more, with commas between them. -/
inductive DerivesArgs : Nat → List Lexeme → List Expr → Prop
  | last {d ts arg} : DerivesExpr d ts arg → DerivesArgs d ts [arg]
  | cons {d ts arg comma us args} : DerivesExpr d ts arg → DerivesArgs d us args →
      DerivesArgs d (ts ++ ⟨.mark .comma, comma⟩ :: us) (arg :: args)

end

inductive DerivesAssign : Nat → List Lexeme → Assign → Prop
  | assign {d ts target loc us value} : DerivesPlace d ts target → DerivesExpr d us value →
      DerivesAssign d (ts ++ ⟨.mark .assign, loc⟩ :: us) ⟨target, value⟩

/-! ## Statements -/

mutual

inductive DerivesStatement : Nat → List Lexeme → Stmt → Prop
  | print {d l ts e r} : DerivesExpr d ts e →
      DerivesStatement d (⟨.keyword .print, l⟩ :: (ts ++ [⟨.mark .semicolon, r⟩])) (.print e)
  | ret {d l ts e r} : DerivesExpr d ts e →
      DerivesStatement d (⟨.keyword .ret, l⟩ :: (ts ++ [⟨.mark .semicolon, r⟩])) (.ret e)
  | array {d l name loc l' ts size r r'} : DerivesExpr d ts size →
      DerivesStatement d
        (⟨.keyword .array, l⟩ :: ⟨.identifier name, loc⟩ :: ⟨.mark .openBracket, l'⟩ ::
          (ts ++ [⟨.mark .closeBracket, r⟩, ⟨.mark .semicolon, r'⟩]))
        (.array name size)
  | conditional {d ts stmt} : DerivesConditional d ts stmt → DerivesStatement d ts stmt
  | whileLoop {d l l' ts test r us body} : DerivesExpr d ts test → DerivesBlock d us body →
      DerivesStatement d
        (⟨.keyword .whileWord, l⟩ :: ⟨.mark .openParen, l'⟩ :: (ts ++ ⟨.mark .closeParen, r⟩ :: us))
        (.whileLoop test body)
  | forLoop {d l l' ts init r us test r' vs step r'' ws body} :
      DerivesAssign d ts init → DerivesExpr d us test → DerivesAssign d vs step →
      DerivesBlock d ws body →
        DerivesStatement d
          (⟨.keyword .forWord, l⟩ :: ⟨.mark .openParen, l'⟩ :: (ts ++ ⟨.mark .semicolon, r⟩ ::
            (us ++ ⟨.mark .semicolon, r'⟩ :: (vs ++ ⟨.mark .closeParen, r''⟩ :: ws))))
          (.forLoop init test step body)
  | assign {d ts a r} : DerivesAssign d ts a →
      DerivesStatement d (ts ++ [⟨.mark .semicolon, r⟩]) (.assign a)
  | call {d ts c r} : DerivesCall d ts c →
      DerivesStatement d (ts ++ [⟨.mark .semicolon, r⟩]) (.call c)
  | block {d ts body} : DerivesBlock d ts body → DerivesStatement d ts (.block body)

/-- A statement that starts with `if`. An `else if` is an else block that holds one conditional. -/
inductive DerivesConditional : Nat → List Lexeme → Stmt → Prop
  | noElse {d l l' ts test r us yes} : DerivesExpr d ts test → DerivesBlock d us yes →
      DerivesConditional d
        (⟨.keyword .ifWord, l⟩ :: ⟨.mark .openParen, l'⟩ :: (ts ++ ⟨.mark .closeParen, r⟩ :: us))
        (.branch test yes none)
  | elseBlock {d l l' ts test r us yes loc vs no} :
      DerivesExpr d ts test → DerivesBlock d us yes → DerivesBlock d vs no →
        DerivesConditional d
          (⟨.keyword .ifWord, l⟩ :: ⟨.mark .openParen, l'⟩ :: (ts ++ ⟨.mark .closeParen, r⟩ ::
            (us ++ ⟨.keyword .elseWord, loc⟩ :: vs)))
          (.branch test yes (some no))
  | elseIf {d l l' ts test r us yes loc vs stmt} :
      DerivesExpr (d + 1) ts test → DerivesBlock (d + 1) us yes → DerivesConditional d vs stmt →
        DerivesConditional (d + 1)
          (⟨.keyword .ifWord, l⟩ :: ⟨.mark .openParen, l'⟩ :: (ts ++ ⟨.mark .closeParen, r⟩ ::
            (us ++ ⟨.keyword .elseWord, loc⟩ :: vs)))
          (.branch test yes (some [stmt]))

inductive DerivesBlock : Nat → List Lexeme → Block → Prop
  | braces {d l ts body r} : DerivesStatements d ts body →
      DerivesBlock (d + 1) (⟨.mark .openBrace, l⟩ :: (ts ++ [⟨.mark .closeBrace, r⟩])) body

inductive DerivesStatements : Nat → List Lexeme → Block → Prop
  | nil {d} : DerivesStatements d [] []
  | cons {d ts stmt us body} : DerivesStatement d ts stmt → DerivesStatements d us body →
      DerivesStatements d (ts ++ us) (stmt :: body)

end

/-! ## Programs -/

/-- One identifier or more, with commas between them. -/
inductive DerivesNames : List Lexeme → List String → Prop
  | last {name loc} : DerivesNames [⟨.identifier name, loc⟩] [name]
  | cons {name loc comma ts names} : DerivesNames ts names →
      DerivesNames (⟨.identifier name, loc⟩ :: ⟨.mark .comma, comma⟩ :: ts) (name :: names)

inductive DerivesFunction : Nat → List Lexeme → Function → Prop
  | empty {d name loc l r ts body} : DerivesBlock d ts body →
      DerivesFunction d
        (⟨.identifier name, loc⟩ :: ⟨.mark .openParen, l⟩ :: ⟨.mark .closeParen, r⟩ :: ts)
        ⟨name, [], body, loc⟩
  | params {d name loc l ts params r us body} : DerivesNames ts params → DerivesBlock d us body →
      DerivesFunction d
        (⟨.identifier name, loc⟩ :: ⟨.mark .openParen, l⟩ :: (ts ++ ⟨.mark .closeParen, r⟩ :: us))
        ⟨name, params, body, loc⟩

inductive DerivesFunctions : Nat → List Lexeme → List Function → Prop
  | nil {d} : DerivesFunctions d [] []
  | cons {d ts f us fs} : DerivesFunction d ts f → DerivesFunctions d us fs →
      DerivesFunctions d (ts ++ us) (f :: fs)

/-- The tokens derive the tree with nesting at most `d` along every path. -/
def DerivesProgram (d : Nat) (tokens : List Lexeme) (tree : Tree) : Prop :=
  DerivesFunctions d tokens tree.functions

/-! ## First tokens -/

section First

variable {d : Nat} {ts : List Lexeme}

theorem DerivesPlace.first {p : Place} (h : DerivesPlace d ts p) :
    ∃ name loc us, ts = ⟨.identifier name, loc⟩ :: us := by
  cases h
  exact ⟨_, _, _, rfl⟩

theorem DerivesCall.first {c : Call} (h : DerivesCall d ts c) :
    ∃ name loc l us, ts = ⟨.identifier name, loc⟩ :: ⟨.mark .openParen, l⟩ :: us := by
  cases h <;> exact ⟨_, _, _, _, rfl⟩

theorem DerivesPrimary.first {e : Expr} (h : DerivesPrimary d ts e) :
    ∃ first us, ts = first :: us ∧ first.token ≠ .operator .sub ∧ first.token ≠ .mark .closeParen := by
  cases h with
  | int | parenthesized => exact ⟨_, _, rfl, by simp, by simp⟩
  | call hc =>
    obtain ⟨name, loc, l, us, rfl⟩ := hc.first
    exact ⟨_, _, rfl, by simp, by simp⟩
  | place hp =>
    obtain ⟨name, loc, us, rfl⟩ := hp.first
    exact ⟨_, _, rfl, by simp, by simp⟩

theorem DerivesUnary.first {e : Expr} (h : DerivesUnary d ts e) :
    ∃ first us, ts = first :: us ∧ first.token ≠ .mark .closeParen := by
  cases h with
  | neg => exact ⟨_, _, rfl, by simp⟩
  | primary hp =>
    obtain ⟨first, us, rfl, -, hfirst⟩ := hp.first
    exact ⟨first, us, rfl, hfirst⟩

theorem DerivesLevel.first : ∀ {levels d ts e}, DerivesLevel levels d ts e →
    ∃ first us, ts = first :: us ∧ first.token ≠ .mark .closeParen
  | _, _, _, _, .unary h => h.first
  | _, _, _, _, .operand h => h.first
  | _, _, _, _, .binary hl _ _ => by
    obtain ⟨first, us, rfl, hfirst⟩ := hl.first
    exact ⟨first, _, rfl, hfirst⟩

theorem DerivesArgs.first {args : List Expr} (h : DerivesArgs d ts args) :
    ∃ first us, ts = first :: us ∧ first.token ≠ .mark .closeParen := by
  cases h with
  | last he | cons he =>
    cases he with
    | levels hl =>
      obtain ⟨first, us, rfl, hfirst⟩ := hl.first
      exact ⟨first, _, rfl, hfirst⟩

theorem DerivesAssign.first {a : Assign} (h : DerivesAssign d ts a) :
    ∃ name loc next us, ts = ⟨.identifier name, loc⟩ :: next :: us ∧ next.token ≠ .mark .openParen := by
  cases h with
  | assign htarget =>
    cases htarget with
    | indexed hi => cases hi <;> exact ⟨_, _, _, _, rfl, by simp⟩

theorem DerivesBlock.first {body : Block} (h : DerivesBlock d ts body) :
    ∃ l us, ts = ⟨.mark .openBrace, l⟩ :: us := by
  cases h
  exact ⟨_, _, rfl⟩

theorem DerivesStatement.first {stmt : Stmt} (h : DerivesStatement d ts stmt) :
    ∃ first us, ts = first :: us ∧ first.token ≠ .mark .closeBrace ∧
      first.token ≠ .keyword .elseWord := by
  cases h with
  | print | ret | array | whileLoop | forLoop => exact ⟨_, _, rfl, by simp, by simp⟩
  | conditional hc => cases hc <;> exact ⟨_, _, rfl, by simp, by simp⟩
  | assign ha =>
    obtain ⟨name, loc, next, us, rfl, -⟩ := ha.first
    exact ⟨_, _, rfl, by simp, by simp⟩
  | call hc =>
    obtain ⟨name, loc, l, us, rfl⟩ := hc.first
    exact ⟨_, _, rfl, by simp, by simp⟩
  | block hb =>
    obtain ⟨l, us, rfl⟩ := hb.first
    exact ⟨_, _, rfl, by simp, by simp⟩

/-- Of the statements, only conditionals start with `if`. -/
theorem DerivesStatement.conditional_of_if {stmt : Stmt} {rest more : List Lexeme} {l : Loc}
    (h : DerivesStatement d ts stmt) (hts : ts ++ rest = ⟨.keyword .ifWord, l⟩ :: more) :
    DerivesConditional d ts stmt := by
  cases h with
  | conditional hc => exact hc
  | print | ret | array | whileLoop | forLoop => cases hts
  | assign ha =>
    obtain ⟨name, loc, next, us, rfl, -⟩ := ha.first
    cases hts
  | call hc =>
    obtain ⟨name, loc, l, us, rfl⟩ := hc.first
    cases hts
  | block hb =>
    obtain ⟨l, us, rfl⟩ := hb.first
    cases hts

theorem DerivesNames.first {names : List String} (h : DerivesNames ts names) :
    ∃ name loc us, ts = ⟨.identifier name, loc⟩ :: us := by
  cases h <;> exact ⟨_, _, _, rfl⟩

end First

end CMinusMinus.Grammar
