import CMinusMinus.Code.Program
import CMinusMinus.Machine.State

/-!
# Instructions

What each instruction does. Operands are taken from the stack before they are looked at, the right one
first, and labels are resolved before operands are taken. An instruction with a number of arguments
that its operation does not have is a fault when it is executed.
-/

namespace CMinusMinus

/-- Where control goes after an instruction. -/
inductive Control where
  | next
  | jump (target : Nat)
  /-- A frame was entered at a label. -/
  | enter (label : String) (target : Nat)
  /-- A frame was left. -/
  | leave (target : Nat)
  /-- The outermost frame returned. -/
  | halt
deriving DecidableEq, Repr

namespace Action

/-! ## Values and variables -/

/-- Pushes a literal as a new integer, or the value of a variable. -/
def pushArgument (arg : String) : Action Unit :=
  match Text.readInt? arg with
  | some value => pushInt value
  | none => do push (← lookup arg)

def applyOperator (opcode : Opcode) (op : BinaryOp) : Action Unit := do
  let (lhs, rhs) ← popPair opcode
  let a ← intOf lhs opcode.name
  let b ← intOf rhs opcode.name
  match op.apply a b with
  | .ok value => pushInt value
  | .error e => throw (.arithmetic e)

def negate : Action Unit := do
  let h ← pop .neg
  pushInt (-(← intOf h Opcode.neg.name))

/-! ## Arrays -/

/-- The position in an array of `length` elements that the integer of a handle names. -/
def elementIndex (h : Handle) (name : String) (length : Nat) : Action Nat := do
  let index ← intOf h "index"
  if 0 ≤ index ∧ index < length then
    return index.toNat
  else
    throw (.badIndex index name length)

/-- Binds a variable to a new array, whose size is the top value and whose elements are one zero. -/
def makeArray (name : String) : Action Unit := do
  let h ← pop .array
  let size ← intOf h Opcode.array.name
  if size < 0 ∨ size ≥ Text.countBound then
    throw (.badSize size name)
  let length := size.toNat
  check (Meter.checkArrayLength length)
  if length ≥ Heap.arrayBound then
    throw (.noRoom length name)
  let zero ← allocate (.int 0)
  let array ← allocate (.array (Array.replicate length zero))
  bind name array

/-- Pushes the element of a variable's array that the top value names. -/
def readElement (name : String) : Action Unit := do
  let h ← pop .access
  let elements ← elementsOf (← lookup name) Opcode.access.name
  let index ← elementIndex h name elements.size
  if inside : index < elements.size then
    push elements[index]

/-- Stores the value below the top into the element of a variable's array that the top value names. -/
def writeElement (name : String) : Action Unit := do
  let (value, h) ← popPair .pop
  let array ← lookup name
  let elements ← elementsOf array Opcode.pop.name
  let index ← elementIndex h name elements.size
  modify fun s => { s with heap := s.heap.setElement array index value }

/-- Pushes the number of elements of a variable's array. -/
def pushLength (name : String) : Action Unit := do
  let elements ← elementsOf (← lookup name) Opcode.length.name
  pushInt elements.size

/-! ## Control -/

def resolve (p : Program) (label : String) : Action Nat :=
  match p.labels.get? label with
  | some position => return position
  | none => throw (.unresolvedLabel label)

def jumpIfZero (p : Program) (label : String) : Action Control := do
  let target ← resolve p label
  let value ← intOf (← pop .jz) Opcode.jz.name
  return if value = 0 then .jump target else .next

/-- Enters a new frame at a label; it returns to the next instruction. -/
def enter (p : Program) (label : String) : Action Control := do
  let target ← resolve p label
  let depth := (← get).depth
  check (Meter.checkDepth depth)
  modify fun s =>
    { s with frame := .entered (s.position + 1), callers := s.callers.push s.frame }
  return .enter label target

/-- Leaves the current frame; its caller owns the top `count` values, which stay on the stack. -/
def leave (count : String) : Action Control := do
  let s ← get
  match Text.readCount? count with
  | none => throw (.badCount count)
  | some count =>
    match s.callers.pop? with
    | none => return .halt
    | some (caller, callers) =>
      let available := s.stack.height
      if available < count then
        throw (.underflow .ret count available)
      set { s with
        frame := { caller with owned := s.stack.items.take count ++ caller.owned }, callers }
      return .leave s.frame.returnAddress

end Action

/-! ## Execution -/

open CMinusMinus.Action in
def Instruction.execute (i : Instruction) (p : Program) : Action Control :=
  match i.opcode, i.args with
  | .push, [arg] => do pushArgument arg; return .next
  | .pop, [] => do discard (pop .pop); return .next
  | .pop, [name] => do bind name (← pop .pop); return .next
  | .pop, [_, name] => do writeElement name; return .next
  | .print, [] => do print (← pop .print); return .next
  | .neg, [] => do negate; return .next
  | .binary op, [] => do applyOperator (.binary op) op; return .next
  | .jz, [label] => jumpIfZero p label
  | .jmp, [label] => do return .jump (← resolve p label)
  | .call, [label] => enter p label
  | .ret, [count] => leave count
  | .array, [name] => do makeArray name; return .next
  | .access, [name] => do readElement name; return .next
  | .length, [name] => do pushLength name; return .next
  | opcode, args => throw (.arity opcode args.length)

end CMinusMinus
