import CMinusMinus.Source.Tree

/-!
# Trees that have code

The grammar allows three things that have no code: two functions with one name, a place with more
than one index, and a call of the builtin `len` with anything but one plain variable. A tree without
them has code. The first offence is reported, in the order in which code would be generated: all
function names first, the arguments of a call from last to first, an assigned value before the place
it is assigned to, and the body of a `for` before its step.
-/

namespace CMinusMinus

/-! ## Errors -/

/-- Why a tree has no code. -/
inductive CompileError.Cause where
  | duplicateFunction (name : String)
  | tooManyIndices (name : String) (count : Nat)
  | lengthArgument
  | lengthArity (given : Nat)
deriving DecidableEq, Repr

def CompileError.Cause.message : CompileError.Cause → String
  | duplicateFunction name => s!"function '{name}' is defined more than once"
  | tooManyIndices name count =>
    s!"'{name}' is indexed {count} times; only one level of indexing is supported"
  | lengthArgument => "len() expects a plain array variable as its argument"
  | lengthArity given => s!"len() takes exactly 1 argument ({given} given)"

/-- An error and the place it is reported at. -/
structure CompileError where
  cause : CompileError.Cause
  loc : Loc
deriving DecidableEq, Repr

def CompileError.message (e : CompileError) : String :=
  s!"compile error at {e.loc.text}: {e.cause.message}"

/-! ## Expressions -/

/-- The name of the builtin that gives the number of elements of an array. -/
def lengthName : String := "len"

def checkLength (args : List Expr) (loc : Loc) : Except CompileError Unit :=
  match args with
  | [.place _ [] _] => .ok ()
  | [_] => .error ⟨.lengthArgument, loc⟩
  | args => .error ⟨.lengthArity args.length, loc⟩

/-- Checks that a place has at most one index. -/
def checkIndices (name : String) (indices : List Expr) (loc : Loc) : Except CompileError Unit :=
  if indices.length ≤ 1 then .ok () else .error ⟨.tooManyIndices name indices.length, loc⟩

mutual

def Expr.check : Expr → Except CompileError Unit
  | .int _ => .ok ()
  | .place name indices loc => do
    checkIndices name indices loc
    Expr.checkAll indices
  | .call name args loc =>
    if name = lengthName then checkLength args loc else Expr.checkAll args
  | .neg operand => operand.check
  | .binary _ lhs rhs => do
    lhs.check
    rhs.check

def Expr.checkAll : List Expr → Except CompileError Unit
  | [] => .ok ()
  | e :: rest => do
    Expr.checkAll rest
    e.check

end

def Call.check (call : Call) : Except CompileError Unit :=
  (Expr.call call.name call.args call.loc).check

/-- Checks an assignment: the value, then the place. -/
def Assign.check (assign : Assign) : Except CompileError Unit := do
  assign.value.check
  (Expr.place assign.target.name assign.target.indices assign.target.loc).check

/-! ## Statements -/

mutual

def Stmt.check : Stmt → Except CompileError Unit
  | .print value => value.check
  | .ret value => value.check
  | .assign a => a.check
  | .array _ size => size.check
  | .call c => c.check
  | .whileLoop condition body => do
    condition.check
    Stmt.checkAll body
  | .forLoop init condition step body => do
    init.check
    condition.check
    Stmt.checkAll body
    step.check
  | .branch condition yes no => do
    condition.check
    Stmt.checkAll yes
    Stmt.checkOption no
  | .block body => Stmt.checkAll body

def Stmt.checkAll : List Stmt → Except CompileError Unit
  | [] => .ok ()
  | stmt :: rest => do
    stmt.check
    Stmt.checkAll rest

def Stmt.checkOption : Option (List Stmt) → Except CompileError Unit
  | none => .ok ()
  | some body => Stmt.checkAll body

end

/-! ## Programs -/

/-- Checks that no function has the name of an earlier one. -/
def checkNames (earlier : List String) : List Function → Except CompileError Unit
  | [] => .ok ()
  | f :: rest =>
    if f.name ∈ earlier then .error ⟨.duplicateFunction f.name, f.loc⟩
    else checkNames (f.name :: earlier) rest

def checkBodies : List Function → Except CompileError Unit
  | [] => .ok ()
  | f :: rest => do
    Stmt.checkAll f.body
    checkBodies rest

def Tree.check (tree : Tree) : Except CompileError Unit := do
  checkNames [] tree.functions
  checkBodies tree.functions

end CMinusMinus
