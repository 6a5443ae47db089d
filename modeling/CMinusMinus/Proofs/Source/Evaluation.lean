import CMinusMinus.Code.Program
import CMinusMinus.Machine.Fault
import CMinusMinus.Proofs.Ideal.Memory
import CMinusMinus.Source.Check

/-!
# Evaluation of syntax trees

What a source text means, told without code. Operands are evaluated from left to right, both of them
always; arguments from the last to the first, and bound in the order of the parameters; an assigned value
before its index. A call has variables of its own, and arrays are shared by all that hold them. Integers
are exact and nothing is limited.

Fuel bounds the depth of calls and the rounds of every loop. An evaluation that needs more is exhausted,
which says nothing of a longer one, except that it printed at least this much.
-/

namespace CMinusMinus

/-- Why an evaluation stops. -/
inductive Stop where
  | exhausted
  | failed (cause : Fault.Cause)
deriving DecidableEq, Repr

/-- What an evaluation reads and changes. -/
structure Scene where
  memory : Memory
  /-- The variables of the current call. -/
  locals : List (String × Datum)
  /-- What was printed so far. -/
  output : String
deriving DecidableEq, Repr

def Scene.start : Scene := ⟨[], [], ""⟩

/-- The scene with a variable bound, in the place of its earlier binding. -/
def Scene.bind (s : Scene) (name : String) (value : Datum) : Scene :=
  { s with locals := (name, value) :: s.locals.filter (·.1 ≠ name) }

/-- The scene of a call that binds its parameters to arguments, one after the other. -/
def Scene.enter (s : Scene) (bindings : List (String × Datum)) : Scene :=
  bindings.foldl (fun s binding => s.bind binding.1 binding.2) { s with locals := [] }

abbrev Eval := EStateM Stop Scene

/-! ## Values -/

namespace Eval

def fail {α : Type} (cause : Fault.Cause) : Eval α :=
  throw (.failed cause)

/-- The integer that an operation needs. -/
def intOf (value : Datum) (operation : String) : Eval Int :=
  match value with
  | .int value => return value
  | .array _ => fail (.notInteger operation)

def read (name : String) : Eval Datum := do
  match (← get).locals.lookup name with
  | some value => return value
  | none => fail (.unboundName name)

def bind (name : String) (value : Datum) : Eval Unit :=
  modify (·.bind name value)

def print (value : Datum) : Eval Unit :=
  modify fun s => { s with output := s.output ++ s.memory.text value ++ "\n" }

def operate (op : BinaryOp) (lhs rhs : Datum) : Eval Datum := do
  let a ← intOf lhs (Opcode.binary op).name
  let b ← intOf rhs (Opcode.binary op).name
  match op.apply a b with
  | .ok value => return .int value
  | .error e => fail (.arithmetic e)

def negate (operand : Datum) : Eval Datum := do
  let value ← intOf operand Opcode.neg.name
  return .int (-value)

def test (value : Datum) : Eval Bool := do
  return (← intOf value Opcode.jz.name) ≠ 0

/-! ## Arrays -/

/-- The address and the elements of the array that an operation needs in a variable. -/
def arrayIn (name operation : String) : Eval (Nat × List Datum) := do
  match ← read name with
  | .array address => return (address, (← get).memory.elements address)
  | .int _ => fail (.notArray operation)

/-- Where an element stands in an array of `length` elements. -/
def place (index : Datum) (name : String) (length : Nat) : Eval Nat := do
  let index ← intOf index "index"
  if 0 ≤ index ∧ index < length then
    return index.toNat
  else
    fail (.badIndex index name length)

def element (name : String) (index : Datum) : Eval Datum := do
  let (_, elements) ← arrayIn name Opcode.access.name
  let position ← place index name elements.length
  return elements.getD position (.int 0)

/-- Stores a value into the array in a variable. -/
def store (name : String) (value index : Datum) : Eval Unit := do
  let (address, elements) ← arrayIn name Opcode.pop.name
  let position ← place index name elements.length
  modify fun s => { s with memory := s.memory.store address position value }

def length (name : String) : Eval Datum := do
  let (_, elements) ← arrayIn name Opcode.length.name
  return .int elements.length

def makeArray (name : String) (size : Datum) : Eval Unit := do
  let size ← intOf size Opcode.array.name
  if size < 0 ∨ size ≥ Text.countBound then
    fail (.badSize size name)
  else
    modify fun s =>
      { s with memory := s.memory ++ [List.replicate size.toNat (Datum.int 0)] }.bind name
        (.array s.memory.length)

/-! ## Loops -/

/-- Evaluates a body and then a step as long as a test succeeds. A `return` in the body ends the loop. -/
def loop (test : Eval Bool) (body : Eval (Option Datum)) (step : Eval Unit) :
    Nat → Eval (Option Datum)
  | 0 => throw .exhausted
  | rounds + 1 => do
    if ← test then
      match ← body with
      | some value => return some value
      | none =>
        step
        loop test body step rounds
    else
      return none

end Eval

/-! ## Expressions -/

section Syntax

variable (call : String → List Datum → Eval Datum)

mutual

def Expr.eval (e : Expr) : Eval Datum :=
  match e with
  | .int value => return .int value
  | .place name [] _ => Eval.read name
  | .place name (index :: _) _ => do Eval.element name (← index.eval)
  | .call name args _ =>
    if name = lengthName then
      match args with
      | .place array _ _ :: _ => Eval.length array
      | args => Eval.fail (.arity .length args.length)
    else do
      call name (← Expr.evalArgs args)
  | .neg operand => do Eval.negate (← operand.eval)
  | .binary op lhs rhs => do
    let a ← lhs.eval
    let b ← rhs.eval
    Eval.operate op a b

/-- The values of arguments, of which the last is evaluated first. -/
def Expr.evalArgs (args : List Expr) : Eval (List Datum) :=
  match args with
  | [] => return []
  | arg :: args => do
    let values ← Expr.evalArgs args
    return (← arg.eval) :: values

end

/-- Whether a condition holds. -/
def Expr.test (condition : Expr) : Eval Bool := do
  Eval.test (← condition.eval call)

/-! ## Statements -/

def Assign.exec (assign : Assign) : Eval Unit := do
  let value ← assign.value.eval call
  match assign.target.indices with
  | [] => Eval.bind assign.target.name value
  | index :: _ => Eval.store assign.target.name value (← index.eval call)

variable (rounds : Nat)

mutual

/-- Executes a statement; gives a value if a `return` was executed. -/
def Stmt.exec (stmt : Stmt) : Eval (Option Datum) :=
  match stmt with
  | .print value => do
    Eval.print (← value.eval call)
    return none
  | .ret value => do return some (← value.eval call)
  | .assign a => do
    a.exec call
    return none
  | .array name size => do
    Eval.makeArray name (← size.eval call)
    return none
  | .call c => do
    let _ ← (Expr.call c.name c.args c.loc).eval call
    return none
  | .whileLoop condition body =>
    Eval.loop (condition.test call) (Stmt.execAll body) (pure ()) rounds
  | .forLoop init condition step body => do
    init.exec call
    Eval.loop (condition.test call) (Stmt.execAll body) (step.exec call) rounds
  | .branch condition yes no => do
    if ← condition.test call then Stmt.execAll yes else Stmt.execOption no
  | .block body => Stmt.execAll body

def Stmt.execAll (body : List Stmt) : Eval (Option Datum) :=
  match body with
  | [] => return none
  | stmt :: body => do
    match ← stmt.exec with
    | some value => return some value
    | none => Stmt.execAll body

/-- Executes a block that may be missing. -/
def Stmt.execOption (no : Option (List Stmt)) : Eval (Option Datum) :=
  match no with
  | none => return none
  | some body => Stmt.execAll body

end

/-- Executes the body of a function with its parameters bound; the value is zero where there is no
`return`. -/
def Function.apply (f : Function) (args : List Datum) : Eval Datum := do
  modify (·.enter (f.params.zip args))
  return (← Stmt.execAll call rounds f.body).getD (.int 0)

end Syntax

/-! ## Trees -/

namespace Tree

def function? (tree : Tree) (name : String) : Option Function :=
  tree.functions.find? (·.name = name)

/-- Calls a function; the variables of the caller are left alone. -/
def invoke (tree : Tree) : Nat → String → List Datum → Eval Datum
  | 0, _, _ => throw .exhausted
  | fuel + 1, name, args => do
    match tree.function? name with
    | none => Eval.fail (.unresolvedLabel name)
    | some f => do
      let locals := (← get).locals
      let value ← f.apply (tree.invoke fuel) fuel args
      modify ({ · with locals })
      return value

/-- Evaluates the function `main` from the start. -/
def evaluate (tree : Tree) (fuel : Nat) : EStateM.Result Stop Scene Datum :=
  match tree.function? Program.entryName with
  | none => .error (.failed (.unresolvedLabel Program.entryName)) .start
  | some f => (f.apply (tree.invoke fuel) fuel []).run .start

end Tree

end CMinusMinus
