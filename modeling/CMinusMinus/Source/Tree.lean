import CMinusMinus.Source.Token

/-!
# Syntax trees

A program is a list of functions; a block is a list of statements. A literal that was read is not
negative; one in a tree that was put together otherwise can be. An `else if` is an else block that holds
one conditional.
-/

namespace CMinusMinus

/-! ## Expressions -/

/-- An expression. -/
inductive Expr where
  | int (value : Int)
  /-- A variable, or an element of the array bound to it. -/
  | place (name : String) (indices : List Expr) (loc : Loc)
  | call (name : String) (args : List Expr) (loc : Loc)
  | neg (operand : Expr)
  | binary (op : BinaryOp) (lhs rhs : Expr)
deriving Repr

/-- What a value is assigned to: a variable or an element of the array bound to it. -/
structure Place where
  name : String
  indices : List Expr
  loc : Loc
deriving Repr

/-- A call of a function by name. -/
structure Call where
  name : String
  args : List Expr
  loc : Loc
deriving Repr

/-- An assignment. -/
structure Assign where
  target : Place
  value : Expr
deriving Repr

/-! ## Statements -/

/-- A statement. -/
inductive Stmt where
  | print (value : Expr)
  | ret (value : Expr)
  | assign (assignment : Assign)
  /-- Binds a name to a new array of zeros. -/
  | array (name : String) (size : Expr)
  /-- A call whose result, if it has one, is dropped. -/
  | call (call : Call)
  | whileLoop (condition : Expr) (body : List Stmt)
  | forLoop (init : Assign) (condition : Expr) (step : Assign) (body : List Stmt)
  | branch (condition : Expr) (yes : List Stmt) (no : Option (List Stmt))
  | block (body : List Stmt)
deriving Repr

/-- A sequence of statements. -/
abbrev Block := List Stmt

/-- The declaration of a function. -/
structure Function where
  name : String
  params : List String
  body : Block
  loc : Loc
deriving Repr

/-- A whole source text: its functions in the order of declaration. -/
structure Tree where
  functions : List Function
deriving Repr

/-! ## Returns -/

mutual

/-- Whether a `return` occurs anywhere in the statement. -/
def Stmt.hasReturn : Stmt → Bool
  | .ret _ => true
  | .whileLoop _ body | .forLoop _ _ _ body | .block body => Stmt.anyReturn body
  | .branch _ yes no => Stmt.anyReturn yes || Stmt.anyReturnOption no
  | .print _ | .assign _ | .array _ _ | .call _ => false

/-- Whether a `return` occurs anywhere in the statements. -/
def Stmt.anyReturn : List Stmt → Bool
  | [] => false
  | stmt :: rest => stmt.hasReturn || Stmt.anyReturn rest

/-- Whether a `return` occurs anywhere in a block that may be missing. -/
def Stmt.anyReturnOption : Option (List Stmt) → Bool
  | none => false
  | some body => Stmt.anyReturn body

end

/-- Whether a call of the function leaves a value for the caller. -/
def Function.yields (f : Function) : Bool :=
  Stmt.anyReturn f.body

/-- Whether the last statement of a block is itself a `return`. -/
def Block.endsWithReturn (body : Block) : Bool :=
  match body.getLast? with
  | some (.ret _) => true
  | _ => false

end CMinusMinus
