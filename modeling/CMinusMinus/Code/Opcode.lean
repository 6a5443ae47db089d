import CMinusMinus.Operator

/-!
# Operation codes

The closed set of operations of the stack machine. The thirteen operators share one constructor, so
the operator of an instruction is part of its operation code. Every code has a canonical spelling,
which is read without regard to the case of ASCII letters, a number, which snapshots use, and a
name, which execution listings use.
-/

namespace CMinusMinus

/-- What an instruction does. -/
inductive Opcode where
  /-- Pushes a fresh integer or the value bound to a name. -/
  | push
  /-- Discards the top value, binds it to a name, or stores it into an array. -/
  | pop
  /-- Pops a value and prints it. -/
  | print
  /-- Pops two integers and pushes the result of the operator. -/
  | binary (op : BinaryOp)
  /-- Pops an integer and jumps to the label if it is zero. -/
  | jz
  /-- Jumps to the label. -/
  | jmp
  /-- Pops an integer and pushes its negation. -/
  | neg
  /-- Enters a new frame at the label. -/
  | call
  /-- Leaves the current frame and hands the top values to the caller. -/
  | ret
  /-- Pops a size and binds a name to a new array of zeros. -/
  | array
  /-- Pops an index and pushes that element of a bound array. -/
  | access
  /-- Pushes the number of elements of a bound array. -/
  | length
deriving DecidableEq, Repr

namespace Opcode

/-- Every code, in the order of the numbers that snapshots use. -/
def all : List Opcode :=
  [push, pop, print, binary .add, binary .sub, binary .mul, binary .div, binary .mod, binary .lt,
    binary .gt, binary .ge, binary .le, binary .ne, binary .eq, jz, jmp, neg, call, ret, array,
    access, length, binary .and, binary .or]

/-! ## Spellings -/

/-- The canonical spelling. -/
def name : Opcode → String
  | push => "push"
  | pop => "pop"
  | print => "print"
  | binary .add => "add"
  | binary .sub => "sub"
  | binary .mul => "mul"
  | binary .div => "div"
  | binary .mod => "mod"
  | binary .lt => "compLT"
  | binary .gt => "compGT"
  | binary .ge => "compGE"
  | binary .le => "compLE"
  | binary .ne => "compNE"
  | binary .eq => "compEQ"
  | jz => "jz"
  | jmp => "jmp"
  | neg => "neg"
  | call => "call"
  | ret => "return"
  | array => "array"
  | access => "access"
  | length => "length"
  | binary .and => "binAnd"
  | binary .or => "binOr"

/-- The name in an execution listing. -/
def title : Opcode → String
  | push => "Push"
  | pop => "Pop"
  | print => "Print"
  | binary .add => "Add"
  | binary .sub => "Sub"
  | binary .mul => "Mul"
  | binary .div => "Div"
  | binary .mod => "Mod"
  | binary .lt => "CompLt"
  | binary .gt => "CompGt"
  | binary .ge => "CompGe"
  | binary .le => "CompLe"
  | binary .ne => "CompNe"
  | binary .eq => "CompEq"
  | jz => "Jz"
  | jmp => "Jmp"
  | neg => "Neg"
  | call => "Call"
  | ret => "Return"
  | array => "Array"
  | access => "Access"
  | length => "Length"
  | binary .and => "BinAnd"
  | binary .or => "BinOr"

/-- Reads a spelling; the case of ASCII letters does not matter. -/
def ofName? (text : String) : Option Opcode :=
  all.find? fun opcode => opcode.name.toLower == text.toLower

/-! ## Numbers -/

/-- The number in a snapshot: the place in `all`. -/
def number (opcode : Opcode) : Nat :=
  all.idxOf opcode

/-- The code with a given number. -/
def ofNumber? (number : Nat) : Option Opcode :=
  all[number]?

theorem ofNumber?_number (opcode : Opcode) : ofNumber? opcode.number = some opcode := by
  cases opcode with
  | binary op => cases op <;> rfl
  | _ => rfl

/-! ## Arguments -/

/-- Whether an instruction with this code may have `count` arguments. -/
def accepts (opcode : Opcode) (count : Nat) : Bool :=
  match opcode with
  | push | jz | jmp | call | ret | array | access | length => count == 1
  | pop => count ≤ 2
  | print | neg | binary _ => count == 0

/-- How many arguments the code takes, in words. -/
def expectedArguments : Opcode → String
  | pop => "0, 1 or 2 arguments"
  | push | jz | jmp | call | ret | array | access | length => "exactly 1 argument"
  | print | neg | binary _ => "no arguments"

/-- The operator that the code applies, if it applies one. -/
def operator? : Opcode → Option BinaryOp
  | binary op => some op
  | _ => none

end Opcode

end CMinusMinus
