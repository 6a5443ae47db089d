import CMinusMinus.Code.Program
import CMinusMinus.Source.Check

/-!
# Code of syntax trees

Operands come before their operator, so code leaves the value of an expression on the operand stack.
A caller pushes arguments from the last to the first and a callee binds its parameters in order, so
the first parameter takes the first argument. A function whose body has a `return` anywhere leaves
one value on every path: where control falls off its end it returns zero. Any other function leaves
none. A call that stands as a statement drops the value that it leaves.

Code is generated in front of the code that follows it. Labels are numbered in the order of the text
from zero on; how many a statement uses is known without generating it.
-/

namespace CMinusMinus

/-! ## Expressions -/

namespace Instruction

def push (arg : String) : Instruction := ⟨.push, [arg]⟩

def bind (name : String) : Instruction := ⟨.pop, [name]⟩

def drop : Instruction := ⟨.pop, []⟩

/-- Stores a value into an element of an array. -/
def store (name : String) : Instruction := ⟨.pop, ["arr", name]⟩

/-- Returns from the current function with a number of values. -/
def ret (count : Nat) : Instruction := ⟨.ret, [count.repr]⟩

end Instruction

/-- The length of the array that the argument of `len` is bound to. -/
def lengthCode (args : List Expr) (rest : List Instruction) : List Instruction :=
  match args with
  | .place name _ _ :: _ => ⟨.length, [name]⟩ :: rest
  | _ => rest

mutual

def Expr.code (e : Expr) (rest : List Instruction) : List Instruction :=
  match e with
  | .int value => .push (Text.numeral value) :: rest
  | .place name [] _ => .push name :: rest
  | .place name (index :: _) _ => index.code (⟨.access, [name]⟩ :: rest)
  | .call name args _ =>
    if name = lengthName then lengthCode args rest
    else Expr.argsCode args (⟨.call, [name]⟩ :: rest)
  | .neg operand => operand.code (⟨.neg, []⟩ :: rest)
  | .binary op lhs rhs => lhs.code (rhs.code (⟨.binary op, []⟩ :: rest))

/-- The code of arguments, from the last to the first, in front of `rest`. -/
def Expr.argsCode (args : List Expr) (rest : List Instruction) : List Instruction :=
  match args with
  | [] => rest
  | arg :: args => Expr.argsCode args (arg.code rest)

end

/-- The code of an assignment in front of `rest`: the value, then the index, then the store. -/
def Assign.code (assign : Assign) (rest : List Instruction) : List Instruction :=
  assign.value.code <| match assign.target.indices with
    | [] => .bind assign.target.name :: rest
    | index :: _ => index.code (.store assign.target.name :: rest)

def Call.code (call : Call) (rest : List Instruction) : List Instruction :=
  (Expr.call call.name call.args call.loc).code rest

/-! ## Statements -/

/-- The name of the generated label with a given number. -/
def generatedLabel (number : Nat) : String :=
  ".L" ++ number.repr

mutual

/-- How many labels the code of a statement uses. -/
def Stmt.labelCount : Stmt → Nat
  | .whileLoop _ body | .forLoop _ _ _ body => 2 + Stmt.labelCounts body
  | .branch _ yes no => 2 + Stmt.labelCounts yes + Stmt.labelCountOption no
  | .block body => Stmt.labelCounts body
  | .print _ | .ret _ | .assign _ | .array _ _ | .call _ => 0

/-- How many labels the code of statements uses. -/
def Stmt.labelCounts : List Stmt → Nat
  | [] => 0
  | stmt :: rest => stmt.labelCount + Stmt.labelCounts rest

/-- How many labels the code of a block that may be missing uses. -/
def Stmt.labelCountOption : Option (List Stmt) → Nat
  | none => 0
  | some body => Stmt.labelCounts body

end

/-- Instructions as lines in front of `rest`. -/
def instructionLines (code : List Instruction) (rest : List Program.Line) : List Program.Line :=
  code.map .instruction ++ rest

/-- Functions by name, each with whether a call of it leaves a value. -/
abbrev Yields := List (String × Bool)

/-- Whether a call of a function leaves a value; a call of the builtin does, one of an unknown
function does not. -/
def Yields.leavesValue (yields : Yields) (name : String) : Bool :=
  name = lengthName || (yields.lookup name).getD false

section Statements

variable (yields : Yields)

/-- The lines of a loop in front of `rest`: test, body and step between two labels. -/
def loopLines (next : Nat) (condition : Expr)
    (body : List Program.Line → List Program.Line) (step : List Instruction)
    (rest : List Program.Line) : List Program.Line :=
  .label (generatedLabel next) ::
    (instructionLines (condition.code [⟨.jz, [generatedLabel (next + 1)]⟩]) <|
      body <|
      instructionLines (step ++ [⟨.jmp, [generatedLabel next]⟩]) <|
      .label (generatedLabel (next + 1)) :: rest)

mutual

/-- The lines of a statement in front of `rest`, with labels from `next` on. -/
def Stmt.lines (next : Nat) (stmt : Stmt) (rest : List Program.Line) : List Program.Line :=
  match stmt with
  | .print value => instructionLines (value.code [⟨.print, []⟩]) rest
  | .ret value => instructionLines (value.code [.ret 1]) rest
  | .assign a => instructionLines (a.code []) rest
  | .array name size => instructionLines (size.code [⟨.array, [name]⟩]) rest
  | .call c =>
    instructionLines (c.code (if yields.leavesValue c.name then [.drop] else [])) rest
  | .whileLoop condition body =>
    loopLines next condition (Stmt.allLines (next + 2) body) [] rest
  | .forLoop init condition step body =>
    instructionLines (init.code []) <|
      loopLines next condition (Stmt.allLines (next + 2) body) (step.code []) rest
  | .branch condition yes no =>
    instructionLines (condition.code [⟨.jz, [generatedLabel next]⟩]) <|
      Stmt.allLines (next + 2) yes <|
      Stmt.elseLines next (next + 2 + Stmt.labelCounts yes) no <|
      .label (generatedLabel (next + 1)) :: rest
  | .block body => Stmt.allLines next body rest

/-- The lines of statements in front of `rest`, with labels from `next` on. -/
def Stmt.allLines (next : Nat) (body : List Stmt) (rest : List Program.Line) :
    List Program.Line :=
  match body with
  | [] => rest
  | stmt :: body => stmt.lines next (Stmt.allLines (next + stmt.labelCount) body rest)

/-- The lines between the two labels of a conditional: the first label is placed where the test
jumps to, and an else block is jumped over before it. -/
def Stmt.elseLines (otherwise next : Nat) (no : Option (List Stmt)) (rest : List Program.Line) :
    List Program.Line :=
  match no with
  | none => .label (generatedLabel otherwise) :: rest
  | some body =>
    .instruction ⟨.jmp, [generatedLabel (otherwise + 1)]⟩ ::
      .label (generatedLabel otherwise) :: Stmt.allLines next body rest

end

/-! ## Functions -/

/-- What follows the body of a function, so that control never falls into the next function. -/
def Function.epilogue (f : Function) : List Instruction :=
  if f.body.endsWithReturn then []
  else if f.yields then [.push "0", .ret 1]
  else [.ret 0]

/-- The lines of a function in front of `rest`, with labels from `next` on. -/
def Function.lines (next : Nat) (f : Function) (rest : List Program.Line) : List Program.Line :=
  .label f.name :: (instructionLines (f.params.map .bind) <|
    Stmt.allLines yields next f.body <| instructionLines f.epilogue rest)

/-- The lines of functions, with labels from `next` on. -/
def functionLines (next : Nat) : List Function → List Program.Line
  | [] => []
  | f :: rest => f.lines yields next (functionLines (next + Stmt.labelCounts f.body) rest)

end Statements

/-! ## Trees -/

namespace Tree

/-- Which functions of a tree leave a value. -/
def yields (tree : Tree) : Yields :=
  tree.functions.map fun f => (f.name, f.yields)

def lines (tree : Tree) : List Program.Line :=
  functionLines tree.yields 0 tree.functions

/-- The program that a tree describes. -/
def generate (tree : Tree) : Program :=
  .ofLines tree.lines

/-- The program of a tree that has code. -/
def compile (tree : Tree) : Except CompileError Program := do
  tree.check
  return tree.generate

end Tree

end CMinusMinus
