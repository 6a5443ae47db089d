import CMinusMinus.Code.Opcode
import CMinusMinus.Machine.Heap
import CMinusMinus.Machine.Limits
import CMinusMinus.Text.Numeral

/-!
# Faults

A run that cannot go on stops with a fault: a cause, and the instruction it arose at. Causes fall into
kinds; a fault is reported by the name of its kind and the text of its cause.
-/

namespace CMinusMinus

/-! ## Kinds -/

/-- The kinds of faults. -/
inductive FaultKind where
  | stackUnderflow
  | typeError
  | unresolvedLabel
  | zeroDivision
  | indexError
  | nameError
  | invalidInstruction
  | danglingHandle
  | recursionError
  | memoryError
deriving DecidableEq, Repr

namespace FaultKind

def all : List FaultKind :=
  [stackUnderflow, typeError, unresolvedLabel, zeroDivision, indexError, nameError,
    invalidInstruction, danglingHandle, recursionError, memoryError]

def name : FaultKind → String
  | stackUnderflow => "StackUnderflow"
  | typeError => "TypeError"
  | unresolvedLabel => "UnresolvedLabel"
  | zeroDivision => "ZeroDivisionError"
  | indexError => "IndexError"
  | nameError => "NameError"
  | invalidInstruction => "InvalidInstruction"
  | danglingHandle => "DanglingHandle"
  | recursionError => "RecursionError"
  | memoryError => "MemoryError"

/-- The kind with a name. -/
def ofName? (name : String) : Option FaultKind :=
  all.find? (·.name == name)

end FaultKind

/-! ## Causes -/

/-- Why a run cannot go on. -/
inductive Fault.Cause where
  | underflow (opcode : Opcode) (needed available : Nat)
  | notInteger (operation : String)
  | notArray (operation : String)
  | unresolvedLabel (label : String)
  | arithmetic (error : ArithmeticError)
  | badIndex (index : Int) (name : String) (length : Nat)
  | badSize (size : Int) (name : String)
  | unboundName (name : String)
  | arity (opcode : Opcode) (found : Nat)
  | badCount (count : String)
  | dangling (handle : Handle)
  | limit (error : LimitError)
  | noRoom (length : Nat) (name : String)
deriving DecidableEq, Repr

namespace Fault.Cause

def kind : Cause → FaultKind
  | underflow _ _ _ => .stackUnderflow
  | notInteger _ | notArray _ => .typeError
  | unresolvedLabel _ => .unresolvedLabel
  | arithmetic _ => .zeroDivision
  | badIndex _ _ _ | badSize _ _ => .indexError
  | unboundName _ => .nameError
  | arity _ _ | badCount _ => .invalidInstruction
  | dangling _ => .danglingHandle
  | limit (.depth _ _) => .recursionError
  | limit (.allocation _ _) | limit (.arrayLength _ _) | noRoom _ _ => .memoryError

def message : Cause → String
  | underflow opcode needed available =>
    s!"'{opcode.name}' needs {needed} operand(s) but the stack holds {available}"
  | notInteger operation => s!"'{operation}' expects an integer operand, got an array"
  | notArray operation => s!"'{operation}' expects an array, got an integer"
  | unresolvedLabel label => s!"label '{label}' is not defined"
  | arithmetic error => error.message
  | badIndex index name length =>
    s!"index {Text.numeral index} out of range for '{name}' of length {length}"
  | badSize size name => s!"invalid size {Text.numeral size} for array '{name}'"
  | unboundName name => s!"name '{name}' is not defined"
  | arity opcode found => s!"'{opcode.name}' takes {opcode.expectedArguments} but got {found}"
  | badCount count => s!"'return' count must be non-negative, got '{count}'"
  | dangling handle => s!"handle {handle.text} refers to a freed slot"
  | limit error => error.message
  | noRoom length name => s!"cannot allocate {length} elements for array '{name}'"

end Fault.Cause

/-! ## Faults -/

/-- A cause and the instruction it arose at; a run that cannot start has no instruction. -/
structure Fault where
  cause : Fault.Cause
  position : Option Nat
deriving DecidableEq, Repr

def Fault.message (fault : Fault) : String :=
  let text := s!"{fault.cause.kind.name}: {fault.cause.message}"
  match fault.position with
  | some position => text ++ s!" (at instruction {position})"
  | none => text

end CMinusMinus
